/-!
# Sorted sets

`SortedSet α`: a finite set of an ordered type as its strictly ascending list, so that two sets
with the same members are equal (`SortedSet.ext_mem`) and a set is always shown in order. Main
statements: `mem_insert`, `mem_union`, `mem_ofList` and `ext_mem`.
-/

namespace JoinPlanner

/-- A finite set, as the strictly ascending list of its members. -/
structure SortedSet (α : Type) [Ord α] where
  toList : List α
  ascending : toList.Pairwise (fun a b => compare a b = .lt)
deriving DecidableEq

namespace SortedSet
variable {α : Type} [Ord α]

instance : Membership α (SortedSet α) := ⟨fun s a => a ∈ s.toList⟩

theorem mem_def {a : α} {s : SortedSet α} : a ∈ s ↔ a ∈ s.toList := .rfl

def empty : SortedSet α := ⟨[], .nil⟩

instance : EmptyCollection (SortedSet α) := ⟨empty⟩

instance : Inhabited (SortedSet α) := ⟨empty⟩

@[simp] theorem not_mem_empty {x : α} : x ∉ (∅ : SortedSet α) := List.not_mem_nil

def singleton (a : α) : SortedSet α := ⟨[a], by simp⟩

def isEmpty (s : SortedSet α) : Bool := s.toList.isEmpty

def size (s : SortedSet α) : Nat := s.toList.length

def contains (s : SortedSet α) (a : α) : Bool := s.toList.any fun b => compare a b == .eq

def isSubset (s t : SortedSet α) : Bool := s.toList.all t.contains

def isDisjoint (s t : SortedSet α) : Bool := s.toList.all fun a => !t.contains a

def filter (p : α → Bool) (s : SortedSet α) : SortedSet α :=
  ⟨s.toList.filter p, s.ascending.sublist List.filter_sublist⟩

/-- Insertion into an ascending list; an element already there is left alone. -/
def insertList (a : α) : List α → List α
  | [] => [a]
  | b :: rest =>
    match compare a b with
    | .lt => a :: b :: rest
    | .eq => b :: rest
    | .gt => b :: insertList a rest

theorem mem_of_mem_insertList {a x : α} {l : List α} (h : x ∈ insertList a l) : x = a ∨ x ∈ l := by
  induction l with
  | nil => exact .inl (List.mem_singleton.1 h)
  | cons b rest ih =>
    unfold insertList at h
    split at h
    · exact List.mem_cons.1 h
    · exact .inr h
    · rcases List.mem_cons.1 h with rfl | h
      · exact .inr List.mem_cons_self
      · exact (ih h).imp_right (List.mem_cons_of_mem b)

theorem ascending_insertList [Std.TransOrd α] {a : α} {l : List α}
    (h : l.Pairwise (fun a b => compare a b = .lt)) :
    (insertList a l).Pairwise (fun a b => compare a b = .lt) := by
  induction l with
  | nil => simp [insertList]
  | cons b rest ih =>
    obtain ⟨below, tail⟩ := List.pairwise_cons.1 h
    unfold insertList
    split
    · next lt =>
      refine List.pairwise_cons.2 ⟨fun x hx => ?_, h⟩
      rcases List.mem_cons.1 hx with rfl | hx
      · exact lt
      · exact Std.TransCmp.lt_trans lt (below x hx)
    · exact h
    · next gt =>
      refine List.pairwise_cons.2 ⟨fun x hx => ?_, ih tail⟩
      rcases mem_of_mem_insertList hx with rfl | hx
      · exact Std.OrientedCmp.gt_iff_lt.1 gt
      · exact below x hx

section
variable [Std.LawfulEqOrd α]

theorem mem_insertList {a x : α} {l : List α} : x ∈ insertList a l ↔ x = a ∨ x ∈ l := by
  induction l with
  | nil => simp [insertList]
  | cons b rest ih =>
    unfold insertList
    split
    · simp
    · next h => simp [Std.LawfulEqCmp.eq_of_compare h]
    · simp only [List.mem_cons, ih]; grind

theorem contains_iff {a : α} {s : SortedSet α} : s.contains a = true ↔ a ∈ s := by
  simp only [contains, List.any_eq_true, beq_iff_eq, mem_def]
  exact ⟨fun ⟨b, hb, h⟩ => Std.LawfulEqCmp.eq_of_compare h ▸ hb, fun h => ⟨a, h, Std.compare_self⟩⟩

theorem isSubset_iff {s t : SortedSet α} : s.isSubset t = true ↔ ∀ a ∈ s, a ∈ t := by
  simp [isSubset, contains_iff, mem_def]

theorem isDisjoint_iff {s t : SortedSet α} : s.isDisjoint t = true ↔ ∀ a ∈ s, a ∉ t := by
  simp only [isDisjoint, List.all_eq_true, Bool.not_eq_true', ← Bool.not_eq_true, contains_iff]
  rfl

variable [Std.TransOrd α]

def insert (a : α) (s : SortedSet α) : SortedSet α :=
  ⟨insertList a s.toList, ascending_insertList s.ascending⟩

def ofList (l : List α) : SortedSet α := l.foldl (fun s a => s.insert a) ∅

def union (s t : SortedSet α) : SortedSet α := t.toList.foldl (fun s a => s.insert a) s

instance : Union (SortedSet α) := ⟨union⟩

def unions (sets : List (SortedSet α)) : SortedSet α := sets.foldl (· ∪ ·) ∅

@[simp] theorem mem_insert {a x : α} {s : SortedSet α} : x ∈ s.insert a ↔ x = a ∨ x ∈ s :=
  mem_insertList

theorem mem_foldl_insert {x : α} {l : List α} {s : SortedSet α} :
    x ∈ l.foldl (fun s a => s.insert a) s ↔ x ∈ s ∨ x ∈ l := by
  induction l generalizing s with
  | nil => simp
  | cons a rest ih => simp only [List.foldl_cons, ih, mem_insert, List.mem_cons]; grind

@[simp] theorem mem_ofList {x : α} {l : List α} : x ∈ ofList l ↔ x ∈ l := by
  simp [ofList, mem_foldl_insert]

@[simp] theorem mem_union {x : α} {s t : SortedSet α} : x ∈ s ∪ t ↔ x ∈ s ∨ x ∈ t :=
  mem_foldl_insert

theorem eq_of_ascending {l m : List α} (hl : l.Pairwise (fun a b => compare a b = .lt))
    (hm : m.Pairwise (fun a b => compare a b = .lt)) (h : ∀ x, x ∈ l ↔ x ∈ m) : l = m := by
  have irrefl : ∀ a : α, compare a a ≠ .lt := fun a => by simp [Std.compare_self]
  have asymm : ∀ a b : α, compare a b = .lt → compare b a = .lt → False := fun a b hab hba =>
    irrefl a (Std.TransCmp.lt_trans hab hba)
  induction l generalizing m with
  | nil => cases m with
    | nil => rfl
    | cons b _ => exact absurd ((h b).2 (.head _)) List.not_mem_nil
  | cons a l ih => cases m with
    | nil => exact absurd ((h a).1 (.head _)) List.not_mem_nil
    | cons b m =>
      obtain ⟨hal, tl⟩ := List.pairwise_cons.1 hl
      obtain ⟨hbm, tm⟩ := List.pairwise_cons.1 hm
      have hab : a = b := by
        rcases List.mem_cons.1 ((h a).1 (.head _)) with rfl | ha
        · rfl
        rcases List.mem_cons.1 ((h b).2 (.head _)) with rfl | hb
        · rfl
        exact (asymm _ _ (hal b hb) (hbm a ha)).elim
      subst hab
      refine congrArg (a :: ·) (ih tl tm fun x => ⟨fun hx => ?_, fun hx => ?_⟩)
      · rcases List.mem_cons.1 ((h x).1 (.tail _ hx)) with rfl | hx'
        · exact (irrefl _ (hal _ hx)).elim
        · exact hx'
      · rcases List.mem_cons.1 ((h x).2 (.tail _ hx)) with rfl | hx'
        · exact (irrefl _ (hbm _ hx)).elim
        · exact hx'

theorem ext_mem {s t : SortedSet α} (h : ∀ x, x ∈ s ↔ x ∈ t) : s = t := by
  obtain ⟨l, hl⟩ := s
  obtain ⟨m, hm⟩ := t
  have : l = m := eq_of_ascending hl hm h
  subst this; rfl

end

end SortedSet

end JoinPlanner
