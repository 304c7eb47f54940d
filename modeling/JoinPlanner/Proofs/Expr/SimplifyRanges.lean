import JoinPlanner.Proofs.Expr.NodeStep
import JoinPlanner.Proofs.Expr.Ranges

/-!
# Ranges of simple forms

Simplification makes its ranges of comparisons with one value and of ranges that are there, which it merges only
if they have one width. So the simple form of a tree that can be stored can be stored
(`Expr.storable_simplify`).
-/

namespace JoinPlanner.Expr

variable {e : Expr} {args : List Expr} {c : ColumnRef} {range r s : KeyRange}

theorem storable_inRange (h : range.Storable) : (inRange c range).Storable := by
  refine .intro _ (fun r hr => ?_) fun e he => ?_
  · rwa [List.mem_singleton.1 hr]
  · rw [List.mem_singleton.1 he]
    exact .intro _ nofun nofun

theorem storable_rangeOrTruth (h : range.Storable) : (rangeOrTruth c range).Storable := by
  unfold rangeOrTruth
  split
  · exact rangesIn_literal _
  · split
    · exact rangesIn_literal _
    · exact storable_inRange h

theorem storable_of_rangeTerm? (h : e.Storable) (hterm : e.rangeTerm? = some (c, range)) : range.Storable := by
  unfold rangeTerm? at hterm
  split at hterm
  · cases hterm
    exact h.own _ (List.mem_singleton_self _)
  · cases hterm

theorem storable_combine (j : Junction) (hr : r.Storable) (hs : s.Storable) (h : r.width = s.width) :
    (j.combine r s).Storable := by
  cases j with
  | all => exact hr.interSameWidth hs h
  | any => exact hr.unionSameWidth hs h

theorem keptByMerging_storable (j : Junction) : KeptByMerging j Storable := fun _ _ _ _ _ he hterm her hterms hwidth =>
  storable_rangeOrTruth (storable_combine j (storable_of_rangeTerm? he her) (storable_of_rangeTerm? hterm hterms) hwidth)

theorem storable_junction {j : Junction} : (apply j.op args).Storable ↔ ∀ e ∈ args, e.Storable :=
  rangesIn_apply (by cases j <;> rfl)

theorem storable_mergedTerms (j : Junction) (hargs : ∀ e ∈ args, e.Storable) :
    ∀ e ∈ mergedTerms j args, e.Storable := by
  refine forall_foldl_mergeTerm (keptByMerging_storable j) nofun fun e he => ?_
  rcases mem_terms_cases he with ⟨he, -⟩ | ⟨es, hes, he⟩
  · exact hargs e he
  · exact storable_junction.1 (hargs _ hes) e he

theorem storable_simplifyNode (h : e.Storable) : e.simplifyNode.Storable := by
  generalize hresult : e.simplifyNode = result
  have hstep := nodeStep_simplifyNode e
  rw [hresult] at hstep
  cases hstep with
  | keep => exact h
  | literal _ v => exact rangesIn_literal v
  | range => exact storable_inRange (.comparing _ (List.cons_ne_nil _ _) (by simp))
  | term hterm => exact storable_mergedTerms _ (storable_junction.1 h) _ hterm
  | junction hterms =>
    exact storable_junction.2 fun e he => storable_mergedTerms _ (storable_junction.1 h) e (hterms.mem he)

theorem children_subset_parts (e : Expr) : e.children ⊆ e.parts := by
  cases e with
  | filter kind child => exact List.cons_subset_cons _ (List.nil_subset _)
  | _ => exact List.Subset.refl _

theorem storable_mapChildren {g : Expr → Expr} (h : e.Storable) (hg : ∀ f ∈ e.children, (g f).Storable) :
    (e.mapChildren g).Storable := by
  cases e with
  | column _ | literal _ | table _ => exact h
  | aliased name source => exact .intro _ h.own (List.forall_mem_singleton.2 (hg source List.mem_cons_self))
  | apply op args => exact .intro _ h.own (List.forall_mem_map.2 hg)
  | filter kind child =>
    refine .intro _ h.own (List.forall_mem_cons.2 ⟨hg child List.mem_cons_self, fun e he => ?_⟩)
    exact h.part (List.mem_cons_of_mem _ he)
  | join kind left right on hints =>
    refine .intro _ h.own fun f hf => ?_
    have hparts : f ∈ (left :: right :: on.toList).map g := by cases on <;> exact hf
    obtain ⟨f', hf', rfl⟩ := List.mem_map.1 hparts
    exact hg f' hf'

theorem storable_simplify (h : e.Storable) : e.simplify.Storable := by
  induction e using children_induction with
  | h e ih =>
    rw [simplify_eq]
    exact storable_simplifyNode (storable_mapChildren h fun f hf => ih f hf (h.part (children_subset_parts e hf)))

end JoinPlanner.Expr
