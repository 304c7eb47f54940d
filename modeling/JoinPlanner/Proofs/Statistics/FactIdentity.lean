import JoinPlanner.Proofs.Statistics.FactValue

/-!
# What a key says of a fact

Lists of equalities that say the same have one key. The converse asks for names that the text of a key keeps
apart (`ColumnRef.Plain`): of these, the words of the text tell where a term ends, its `=` where the left
column ends, and the last two dots of a column where its names begin (`FactKey.ofEqualities_eq_iff`).
-/

namespace JoinPlanner

section
variable {x y word : List Char} {c : Char}

theorem splitOn_append_cons (x y : List Char) (c : Char) :
    (x ++ c :: y).splitOn c = x.splitOn c ++ y.splitOn c :=
  List.splitOnP_append_cons x y (beq_self_eq_true c)

theorem splitOn_injective (c : Char) : Function.Injective (List.splitOn c) :=
  Function.LeftInverse.injective (g := List.intercalate [c]) fun _ => List.intercalate_splitOn c

/-- Texts that are joined by a character make no word that lacks it. -/
theorem not_mem_words_append (hc : c ≠ ' ') (hword : c ∉ word) (hx : word ∉ x.splitOn ' ')
    (hy : word ∉ y.splitOn ' ') : word ∉ (x ++ c :: y).splitOn ' ' := by
  induction hn : x.length + y.length using Nat.strong_induction_on generalizing x y with
  | _ n ih =>
    subst hn
    by_cases hspace : ' ' ∈ x
    · obtain ⟨x₁, x₂, rfl⟩ := List.append_of_mem hspace
      rw [splitOn_append_cons, List.mem_append, not_or] at hx
      rw [List.append_assoc, List.cons_append, splitOn_append_cons, List.mem_append, not_or]
      exact ⟨hx.1, ih _ (by simp; omega) hx.2 hy rfl⟩
    by_cases hspace' : ' ' ∈ y
    · obtain ⟨y₁, y₂, rfl⟩ := List.append_of_mem hspace'
      rw [splitOn_append_cons, List.mem_append, not_or] at hy
      rw [← List.cons_append, ← List.append_assoc, splitOn_append_cons, List.mem_append, not_or]
      exact ⟨ih _ (by simp) hx hy.1 rfl, hy.2⟩
    rw [List.splitOn_eq_singleton (by simp [hspace, hspace', hc.symm]), List.mem_singleton]
    rintro rfl
    exact hword (by simp)

end

/-- The word that stands between two terms of a key. -/
def conjunctionWord : List Char := ['A', 'N', 'D']

theorem words_intercalate {terms : List (List Char)} (h : terms ≠ []) :
    (" AND ".toList.intercalate terms).splitOn ' ' =
      [conjunctionWord].intercalate (terms.map (·.splitOn ' ')) := by
  induction terms with
  | nil => exact absurd rfl h
  | cons t rest ih =>
    cases rest with
    | nil => simp [List.intercalate]
    | cons u rest =>
      have hjoin : " AND ".toList.intercalate (t :: u :: rest) =
          t ++ ' ' :: (conjunctionWord ++ ' ' :: " AND ".toList.intercalate (u :: rest)) := by
        simp [List.intercalate, conjunctionWord]
      have hword : conjunctionWord.splitOn ' ' = [conjunctionWord] := rfl
      rw [hjoin, splitOn_append_cons, splitOn_append_cons, hword, ih (by simp)]
      simp [List.intercalate]

/-- A text has its terms back, if none is empty and none has the word that joins them. -/
theorem intercalate_injOn {terms terms' : List (List Char)}
    (h : ∀ t ∈ terms, t ≠ [] ∧ conjunctionWord ∉ t.splitOn ' ')
    (h' : ∀ t ∈ terms', t ≠ [] ∧ conjunctionWord ∉ t.splitOn ' ')
    (heq : " AND ".toList.intercalate terms = " AND ".toList.intercalate terms') : terms = terms' := by
  have hnil {ts : List (List Char)} (hts : ∀ t ∈ ts, t ≠ []) (hempty : " AND ".toList.intercalate ts = []) :
      ts = [] := by
    cases ts with
    | nil => rfl
    | cons t rest => cases rest <;> simp_all [List.intercalate]
  by_cases hterms : terms = []
  · subst hterms
    exact (hnil (fun t ht => (h' t ht).1) heq.symm).symm
  by_cases hterms' : terms' = []
  · subst hterms'
    exact hnil (fun t ht => (h t ht).1) heq
  have hwords {ts : List (List Char)} (hts : ∀ t ∈ ts, conjunctionWord ∉ t.splitOn ' ') (hne : ts ≠ []) :
      ((" AND ".toList.intercalate ts).splitOn ' ').splitOn conjunctionWord = ts.map (·.splitOn ' ') := by
    rw [words_intercalate hne]
    exact List.splitOn_intercalate _ (by simpa using hts) (by simpa using hne)
  refine List.map_injective_iff.2 (splitOn_injective ' ') ?_
  rw [← hwords (fun t ht => (h t ht).2) hterms, ← hwords (fun t ht => (h' t ht).2) hterms', heq]

namespace ColumnRef

variable {c d : ColumnRef}

/-- A column whose text can be told apart in a key. The name of a schema may hold dots. -/
structure Plain (c : ColumnRef) : Prop where
  table : '.' ∉ c.table.name.toList
  column : '.' ∉ c.column.toList
  equals : '=' ∉ c.render.toList
  word : conjunctionWord ∉ c.render.toList.splitOn ' '

instance (c : ColumnRef) : Decidable c.Plain :=
  decidable_of_iff ('.' ∉ c.table.name.toList ∧ '.' ∉ c.column.toList ∧ '=' ∉ c.render.toList ∧
    conjunctionWord ∉ c.render.toList.splitOn ' ')
    ⟨fun ⟨ht, hc, he, hw⟩ => ⟨ht, hc, he, hw⟩, fun ⟨ht, hc, he, hw⟩ => ⟨ht, hc, he, hw⟩⟩

/-- The parts of the name of a schema, if there is one. -/
def schemaParts : Option String → List (List Char)
  | none => []
  | some schema => schema.toList.splitOn '.'

theorem schemaParts_injective : Function.Injective schemaParts := by
  intro s s' h
  cases s with
  | none =>
    cases s' with
    | none => rfl
    | some s' => exact absurd h.symm (List.splitOnP_ne_nil _ _)
  | some s =>
    cases s' with
    | none => exact absurd h (List.splitOnP_ne_nil _ _)
    | some s' => exact congrArg some (String.toList_inj.1 (splitOn_injective '.' h))

/-- The last two parts of the text of a column are its table's name and its own. -/
theorem splitOn_render (h : c.Plain) :
    c.render.toList.splitOn '.' = schemaParts c.table.schema ++ [c.table.name.toList, c.column.toList] := by
  have hname := List.splitOn_eq_singleton h.table
  have hcolumn := List.splitOn_eq_singleton h.column
  have htext : c.render.toList = c.table.render.toList ++ '.' :: c.column.toList := by simp [render]
  rw [htext, splitOn_append_cons, hcolumn, TableName.render]
  cases hschema : c.table.schema with
  | none => simp [schemaParts, hname]
  | some schema =>
    have htable : (schema ++ "." ++ c.table.name).toList = schema.toList ++ '.' :: c.table.name.toList := by simp
    rw [htable, splitOn_append_cons, hname, schemaParts, List.append_assoc]
    rfl

theorem render_injOn (hc : c.Plain) (hd : d.Plain) (h : c.render = d.render) : c = d := by
  have hparts := splitOn_render hc
  rw [h, splitOn_render hd] at hparts
  obtain ⟨hschema, hnames⟩ := List.append_inj' hparts rfl
  have hschema := schemaParts_injective hschema
  obtain ⟨⟨s, n⟩, x⟩ := c
  obtain ⟨⟨s', n'⟩, x'⟩ := d
  simp_all [String.toList_inj]

end ColumnRef

namespace FactKey

variable {l r l' r' : ColumnRef} {P Q : List (ColumnRef × ColumnRef)}

/-- An equality is written with its columns in one order or the other. -/
theorem equality_eq (l r : ColumnRef) :
    ∃ a b, s(l, r) = s(a, b) ∧ (equality l r).toList = a.render.toList ++ '=' :: b.render.toList := by
  unfold equality
  split
  · exact ⟨l, r, rfl, by simp⟩
  · exact ⟨r, l, Sym2.eq_swap, by simp⟩

theorem equality_injOn (h : ∀ c ∈ s(l, r), c.Plain) (h' : ∀ c ∈ s(l', r'), c.Plain)
    (heq : equality l r = equality l' r') : s(l, r) = s(l', r') := by
  obtain ⟨a, b, hab, htext⟩ := equality_eq l r
  obtain ⟨a', b', hab', htext'⟩ := equality_eq l' r'
  rw [hab] at h ⊢
  rw [hab'] at h' ⊢
  simp only [Sym2.mem_iff, forall_eq_or_imp, forall_eq] at h h'
  have hsides {a b : ColumnRef} (ha : a.Plain) (hb : b.Plain) :
      (a.render.toList ++ '=' :: b.render.toList).splitOn '=' = [a.render.toList, b.render.toList] := by
    rw [splitOn_append_cons, List.splitOn_eq_singleton ha.equals, List.splitOn_eq_singleton hb.equals]
    rfl
  have hrenders : [a.render.toList, b.render.toList] = [a'.render.toList, b'.render.toList] := by
    rw [← hsides h.1 h.2, ← hsides h'.1 h'.2, ← htext, ← htext', heq]
  simp only [List.cons.injEq, String.toList_inj, and_true] at hrenders
  rw [ColumnRef.render_injOn h.1 h'.1 hrenders.1, ColumnRef.render_injOn h.2 h'.2 hrenders.2]

/-- No text of an equality is empty, or has the word that joins two of them. -/
theorem equality_term (h : ∀ c ∈ s(l, r), c.Plain) :
    (equality l r).toList ≠ [] ∧ conjunctionWord ∉ (equality l r).toList.splitOn ' ' := by
  obtain ⟨a, b, hab, htext⟩ := equality_eq l r
  rw [hab] at h
  simp only [Sym2.mem_iff, forall_eq_or_imp, forall_eq] at h
  rw [htext]
  exact ⟨by simp, not_mem_words_append (by decide) (by decide) h.1.word h.2.word⟩

/-- The texts of the equalities are what a key of plain columns says. -/
theorem mem_texts_iff (hP : ∀ pair ∈ P, pair.1.Plain ∧ pair.2.Plain) (hQ : ∀ pair ∈ Q, pair.1.Plain ∧ pair.2.Plain)
    (h : ofEqualities P = ofEqualities Q) (text : String) :
    text ∈ P.map (fun (l, r) => equality l r) ↔ text ∈ Q.map (fun (l, r) => equality l r) := by
  have hterms {pairs : List (ColumnRef × ColumnRef)} (hplain : ∀ pair ∈ pairs, pair.1.Plain ∧ pair.2.Plain) :
      ∀ t ∈ (SortedSet.ofList (pairs.map fun (l, r) => equality l r)).toList.map String.toList,
        t ≠ [] ∧ conjunctionWord ∉ t.splitOn ' ' := by
    intro t ht
    obtain ⟨text, htext, rfl⟩ := List.mem_map.1 ht
    obtain ⟨⟨l, r⟩, hpair, rfl⟩ := List.mem_map.1 (SortedSet.mem_ofList.1 htext)
    exact equality_term (by simpa using hplain _ hpair)
  have htexts := congrArg (fun key => key.text.toList) h
  simp only [ofEqualities, String.toList_intercalate] at htexts
  have hlists := List.map_injective_iff.2 (fun _ _ => String.toList_inj.1)
    (intercalate_injOn (hterms hP) (hterms hQ) htexts)
  rw [← SortedSet.mem_ofList, ← SortedSet.mem_ofList, SortedSet.mem_def, SortedSet.mem_def, hlists]

/-- Lists that say the same have one key, whatever the names in them. Lists of plain columns have one key only
if they say the same. -/
theorem ofEqualities_eq_iff (P Q : List (ColumnRef × ColumnRef)) :
    ((∀ e, e ∈ equalities P ↔ e ∈ equalities Q) → ofEqualities P = ofEqualities Q) ∧
    ((∀ pair ∈ P ++ Q, pair.1.Plain ∧ pair.2.Plain) →
      (ofEqualities P = ofEqualities Q ↔ ∀ e, e ∈ equalities P ↔ e ∈ equalities Q)) := by
  refine ⟨ofEqualities_congr, fun hplain => ⟨fun h => ?_, ofEqualities_congr⟩⟩
  obtain ⟨hP, hQ⟩ := List.forall_mem_append.1 hplain
  have hsubset {P Q : List (ColumnRef × ColumnRef)} (hP : ∀ pair ∈ P, pair.1.Plain ∧ pair.2.Plain)
      (hQ : ∀ pair ∈ Q, pair.1.Plain ∧ pair.2.Plain) (h : ofEqualities P = ofEqualities Q) :
      ∀ e ∈ equalities P, e ∈ equalities Q := by
    intro e he
    obtain ⟨⟨l, r⟩, hpair, rfl⟩ := List.mem_map.1 he
    obtain ⟨⟨l', r'⟩, hpair', htext⟩ := List.mem_map.1
      ((mem_texts_iff hP hQ h _).1 (List.mem_map_of_mem hpair))
    rw [equality_injOn (by simpa using hP _ hpair) (by simpa using hQ _ hpair') htext.symm]
    exact List.mem_map_of_mem (f := fun pair => s(pair.1, pair.2)) hpair'
  exact fun e => ⟨hsubset hP hQ h e, hsubset hQ hP h.symm e⟩

/-- A column of a table with a schema and one of a table without, compared with a third whose name has blanks: a
flipped equality is the same fact, that of the other column another one. -/
theorem ofEqualities_eq_iff_schemas :
    let x : ColumnRef := ⟨⟨some "shop.eu", "t"⟩, "x"⟩
    let x' : ColumnRef := ⟨⟨none, "t"⟩, "x"⟩
    let y : ColumnRef := ⟨⟨none, "u"⟩, "date AND-or time"⟩
    ofEqualities [(x, y), (y, x)] = ofEqualities [(y, x)] ∧ ofEqualities [(x, y)] ≠ ofEqualities [(x', y)] := by
  intro x x' y
  refine ⟨(ofEqualities_eq_iff _ _).1 fun e => ?_, fun h => ?_⟩
  · simp [equalities, Sym2.eq_swap (a := x)]
  · have hsame := ((ofEqualities_eq_iff _ _).2 (by decide)).1 h s(x, y)
    revert hsame
    decide

/-- With a dot in the name of a table, two facts have one key. -/
example :
    let y : ColumnRef := ⟨⟨none, "A"⟩, "y"⟩
    ofEqualities [(y, ⟨⟨some "a", "b"⟩, "x"⟩)] = ofEqualities [(y, ⟨⟨none, "a.b"⟩, "x"⟩)] := by
  decide +kernel

end FactKey

end JoinPlanner
