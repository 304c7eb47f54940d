import JoinPlanner.Proofs.Candidate.Paths
import JoinPlanner.Proofs.Predicate.Stored

/-!
# Plans that can be stored

A plan that is built is made of the conditions and access paths of its predicates, with the constants and the order
on top. So it can be stored if its problem can (`Problem.storable_of_build`).
-/

namespace JoinPlanner

namespace Predicate

variable {p : Predicate} {f : Fragment} {path : AccessPath}

namespace Storable

variable {left right : Fragment}

theorem select (hp : p.Storable) {path : Option AccessPath} (hpath : ∀ x ∈ path, x ∈ p.paths)
    (hf : f.tree.Storable) : (Expr.filter (.select p.condition path) f.tree).Storable := by
  refine .intro _ (List.forall_mem_flatMap.2 fun x hx => ?_) ?_
  · exact hp.paths x (hpath x (Option.mem_toList.1 hx))
  · exact List.forall_mem_cons.2 ⟨hf, List.forall_mem_singleton.2 hp.condition⟩

theorem join (hp : p.Storable) (kind : JoinKind) (hl : left.tree.Storable) (hr : right.tree.Storable) :
    (p.join kind left right).tree.Storable := by
  have hhint (f : Fragment) : ∀ x ∈ (p.joinPath f).toList, x.Storable := fun x hx =>
    hp.paths x ((of_joinPath (Option.mem_toList.1 hx)).1)
  have hon : ∀ e ∈ if p.condition.isTrueLiteral then none else some p.condition, e.Storable := by
    intro e he
    split at he
    · cases he
    · cases he
      exact hp.condition
  refine .intro _ (List.forall_mem_flatMap.2 (List.forall_mem_append.2 ⟨hhint left, hhint right⟩)) ?_
  refine List.forall_mem_cons.2 ⟨hl, List.forall_mem_cons.2 ⟨hr, fun e he => hon e (Option.mem_toList.1 he)⟩⟩

end Storable

end Predicate

namespace Assembly

variable {a : Assembly}

theorem storable_product {left right : Fragment} (hl : left.tree.Storable) (hr : right.tree.Storable) :
    (left.product right).tree.Storable :=
  .intro _ nofun (List.forall_mem_cons.2 ⟨hl, List.forall_mem_singleton.2 hr⟩)

theorem storable_tree (hpredicates : ∀ p ∈ a.predicates, p.Storable) (happlied : ∀ n ∈ a.nodes, n.Applied) :
    a.tree.Storable := by
  induction a with
  | relation r => exact Expr.rangesIn_relation _ _
  | select p path input ih =>
    obtain ⟨hp, hinput⟩ := List.forall_mem_cons.1 hpredicates
    obtain ⟨hroot, hnodes⟩ := List.forall_mem_cons.1 happlied
    refine hp.select (fun x hx => ?_) (ih hinput hnodes)
    exact (Predicate.of_mem_filterPaths (hroot.served p path input rfl x hx)).1
  | product left right ihl ihr =>
    obtain ⟨hpl, hpr⟩ := List.forall_mem_append.1 hpredicates
    obtain ⟨hnl, hnr⟩ := List.forall_mem_append.1 (List.forall_mem_cons.1 happlied).2
    exact storable_product (ihl hpl hnl) (ihr hpr hnr)
  | join p kind left right ihl ihr =>
    obtain ⟨hp, hrest⟩ := List.forall_mem_cons.1 hpredicates
    obtain ⟨hpl, hpr⟩ := List.forall_mem_append.1 hrest
    obtain ⟨hnl, hnr⟩ := List.forall_mem_append.1 (List.forall_mem_cons.1 happlied).2
    exact hp.join kind (ihl hpl hnl) (ihr hpr hnr)

theorem Closes.storable {relations : List Relation} {predicates : List Predicate} {as : List Assembly}
    {core : Expr} (h : Closes as core) (hreach : Reached relations predicates as [])
    (hpredicates : ∀ p ∈ predicates, p.Storable) : core.Storable := by
  cases h with
  | none => exact .intro _ nofun (List.forall_mem_singleton.2 ((Expr.rangesIn_apply rfl).2 nofun))
  | paired hpaired =>
    obtain ⟨-, hperm, happlied⟩ := hpaired.of_reached hreach
    exact storable_tree (fun p hp => hpredicates p (hperm.mem_iff.1 hp)) happlied

end Assembly

namespace Problem.Storable

variable {problem : Problem} {tree : Expr}

theorem withStatics (h : problem.Storable) (htree : tree.Storable) : (problem.withStatics tree).Storable := by
  unfold Problem.withStatics
  split
  · exact htree
  · refine .intro _ nofun (List.forall_mem_cons.2 ⟨htree, List.forall_mem_singleton.2 ?_⟩)
    exact Expr.rangesIn_conjunction.2 h.statics

theorem withOrder (h : problem.Storable) (htree : tree.Storable) : (problem.withOrder tree).Storable := by
  unfold Problem.withOrder
  split
  · exact htree
  · refine .intro _ (List.forall_mem_flatMap.2 fun path hpath => ?_) (List.forall_mem_cons.2 ⟨htree, ?_⟩)
    · exact h.sortPath path (Option.filter_eq_some_iff.1 (Option.mem_toList.1 hpath)).1
    · exact List.forall_mem_map.2 h.order

end Problem.Storable

/-- A plan that is built can be stored if its problem can. -/
theorem Problem.storable_of_build {problem : Problem} {σ : Type} [RandomSource σ] {order : List ℕ} {source : σ}
    {tree : Expr} (h : problem.Storable) (hbuild : problem.build order source = .ok tree) : tree.Storable := by
  obtain ⟨predicates, as, core, hselect, hreach, hcloses, rfl⟩ := build_eq_ok hbuild
  obtain ⟨chosen, hperm, hsub⟩ := exists_sublist_of_select hselect
  have hpredicates : ∀ p ∈ predicates, p.Storable := fun p hp => h.predicates p (hsub.subset (hperm.mem_iff.2 hp))
  exact h.withOrder (h.withStatics (hcloses.storable hreach hpredicates))

end JoinPlanner
