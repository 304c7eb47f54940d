import JoinPlanner.Proofs.Expr.Ranges
import JoinPlanner.Proofs.Range.Stored
import JoinPlanner.Wire.Write

/-!
# Reading what was written

Data that was written is read back, however much the reading lets pass: a reader applied to it is `pure`.
One lemma a combinator, then one a type. A range comes back unchanged, although it is checked and put into
normal form again, if it is storable (`KeyRange.read_write`). A tree comes back whatever costs its nodes have
(`Expr.read_writeWith`); a plan is written as its tree with its costs (`Plan.write_eq`).
-/

namespace JoinPlanner

namespace Wire

open Data

variable {α β : Type} {fields : List (String × Data)} {name : String}

instance : LawfulMonad Decode := inferInstanceAs (LawfulMonad (ReaderT Tolerance (Except DecodeError)))

@[simp] theorem required_some (a : α) : required (some a) = pure a := rfl

@[simp] theorem lift_ok (a : α) : (liftM (Except.ok a : Except RangeError α) : Decode α) = pure a := rfl

namespace Data

@[simp] theorem asObject_object : asObject (object fields) = pure fields := rfl

@[simp] theorem asText_text (s : String) : asText (text s) = pure s := rfl

@[simp] theorem asBool_bool (b : Bool) : asBool (bool b) = pure b := rfl

@[simp] theorem asVariant_variant (payload : Data) : asVariant (variant name payload) = pure (name, some payload) := rfl

@[simp] theorem asVariant_text : asVariant (text name) = pure (name, none) := rfl

@[simp] theorem asUnit_none (a : α) : asUnit a none = pure a := rfl

theorem asInt_of_mem {lower upper n : Int} (h : lower ≤ n ∧ n ≤ upper) : asInt lower upper (int n) = pure n := by
  rw [asInt, if_pos h]

theorem asCount_ofNat {n : ℕ} (h : n ≤ 0xffffffffffffffff) : asCount (ofNat n) = pure n := by
  rw [asCount, ofNat, asInt_of_mem ⟨by omega, by exact_mod_cast h⟩, pure_bind, Int.toNat_natCast]

theorem asList_list {item : Data → Decode α} {write : α → Data} {as : List α}
    (h : ∀ a ∈ as, item (write a) = pure a) : asList item (list (as.map write)) = pure as := by
  show (as.map write).mapM item = pure as
  induction as with
  | nil => rfl
  | cons a as ih =>
    obtain ⟨ha, has⟩ := List.forall_mem_cons.1 h
    rw [List.map_cons, List.mapM_cons, ha, pure_bind, ih has, pure_bind]

theorem depth_pos (d : Data) : 0 < d.depth := by cases d <;> simp [depth]

theorem asList_cons {item : Data → Decode α} {d : Data} {ds : List Data} :
    asList item (list (d :: ds)) = (do return (← item d) :: (← asList item (list ds))) := List.mapM_cons

theorem asOption_ofOption {value : Data → Decode α} {write : α → Data} {o : Option α}
    (h : ∀ a ∈ o, value (write a) = pure a ∧ write a ≠ null) : asOption value (ofOption write o) = pure o := by
  cases o with
  | none => rfl
  | some a =>
    obtain ⟨ha, hnull⟩ := h a rfl
    show asOption value (write a) = _
    unfold asOption
    split
    · exact absurd ‹_› hnull
    · rw [ha, pure_bind]

@[simp] theorem optional_cons (other : String) (d : Data) (value : Data → Decode α) :
    optional ((other, d) :: fields) name value =
      if name = other then some <$> value d else optional fields name value := by
  unfold optional
  rw [List.lookup_cons]
  split
  · next h =>
    rw [if_pos (eq_of_beq h)]
    rfl
  · next h => rw [if_neg (beq_eq_false_iff_ne.1 h)]

@[simp] theorem nullable_cons (other : String) (d : Data) (value : Data → Decode α) :
    nullable ((other, d) :: fields) name value =
      if name = other then asOption value d else nullable fields name value := by
  unfold nullable
  rw [optional_cons]
  split
  · rw [map_eq_pure_bind, bind_assoc]
    simp
  · rfl

end Data

end Wire

open Wire Wire.Data

@[simp] theorem TableName.read_write (t : TableName) : TableName.read t.write = pure t := by
  have hschema : asOption asText (ofOption text t.schema) = pure t.schema := asOption_ofOption fun _ _ => ⟨rfl, nofun⟩
  simp [read, write, hschema]

@[simp] theorem ColumnRef.read_write (c : ColumnRef) : ColumnRef.read c.write = pure c := by
  simp [read, write]

@[simp] theorem Value.read_write (v : Value) : Value.read v.write = pure v := by
  cases v with
  | int n =>
    show (do return Value.int (.ofInt (← asInt _ _ (.int n.toInt)))) = _
    rw [asInt_of_mem ⟨n.minValue_le_toInt, n.toInt_le⟩, pure_bind, Int64.ofInt_toInt]
  | float x => simp [read, write, asFloat]
  | date day =>
    show (do return Value.date (.ofInt (← asInt _ _ (.int day.toInt)))) = _
    rw [asInt_of_mem ⟨day.minValue_le_toInt, day.toInt_le⟩, pure_bind, Int32.ofInt_toInt]
  | _ => simp [read, write]

theorem Key.read_write (key : Key) : asList Value.read (ofList Value.write key) = pure key :=
  asList_list fun v _ => v.read_write

@[simp] theorem KeyBound.read_write (b : KeyBound) : KeyBound.read b.write = pure b := by
  cases b <;> simp [read, write, Key.read_write]

@[simp] theorem KeyInterval.read_write (i : KeyInterval) : KeyInterval.read i.write = pure i := by
  simp [read, write]

/-- What is written of a range is checked and made anew when it is read. -/
theorem KeyRange.read_write_eq (r : KeyRange) (h : r.width ≤ 0xffffffffffffffff) :
    KeyRange.read r.write = liftM (ofCheckedIntervals r.width r.intervals) := by
  have hlist : asList KeyInterval.read (ofList KeyInterval.write r.intervals) = pure r.intervals :=
    asList_list fun i _ => i.read_write
  simp [read, write, hlist, asCount_ofNat h]

theorem KeyRange.read_write {r : KeyRange} (h : r.Storable) : KeyRange.read r.write = pure r := by
  have hfits : ∀ b ∈ boundsOf r.intervals, b.Fits r.width := forall_mem_boundsOf.2 fun i hi =>
    have hwidth := h.obtained.separated.hasWidth i hi
    ⟨hwidth.lower.fits (h.keyed i hi).1, hwidth.upper.fits (h.keyed i hi).2⟩
  rw [read_write_eq r h.width_le, ofCheckedIntervals_eq_ok_iff.2 ⟨hfits, ofIntervals_eq_of_obtained h.obtained⟩,
    lift_ok]

@[simp] theorem Comparison.read_write (op : Comparison) : Comparison.read op.write = pure op := by
  cases op <;> rfl

@[simp] theorem Arithmetic.read_write (op : Arithmetic) : Arithmetic.read op.write = pure op := by
  cases op <;> rfl

@[simp] theorem JoinKind.read_write (kind : JoinKind) : JoinKind.read kind.write = pure kind := by
  cases kind <;> rfl

theorem FunctionOp.read_write {op : FunctionOp} (h : ∀ r ∈ op.ranges, r.Storable) :
    FunctionOp.read op.write = pure op := by
  cases op with
  | inRange range => simp [read, write, KeyRange.read_write (h range (List.mem_singleton_self range))]
  | _ => simp [read, write]

theorem AccessPath.read_write {p : AccessPath} (h : ∀ r ∈ p.ranges, r.Storable) :
    AccessPath.read p.write = pure p := by
  have hcolumns : asList asText (ofList text p.columns) = pure p.columns := asList_list fun _ _ => rfl
  have hrange : asOption KeyRange.read (ofOption KeyRange.write p.range) = pure p.range :=
    asOption_ofOption fun r hr => ⟨KeyRange.read_write (h r (Option.mem_toList.2 hr)), nofun⟩
  simp [read, write, hcolumns, hrange]

theorem AccessPath.asOption_ofOption (path : Option AccessPath)
    (h : ∀ r ∈ path.toList.flatMap AccessPath.ranges, r.Storable) :
    asOption AccessPath.read (ofOption AccessPath.write path) = pure path := by
  refine Data.asOption_ofOption fun p hp => ⟨AccessPath.read_write fun r hr => ?_, nofun⟩
  exact h r (List.mem_flatMap.2 ⟨p, Option.mem_toList.2 hp, hr⟩)

theorem JoinHints.read_write {hints : JoinHints} (h : ∀ r ∈ hints.paths.flatMap AccessPath.ranges, r.Storable) :
    JoinHints.read hints.write = pure hints := by
  have hfact : asOption FactKey.read (ofOption FactKey.write hints.fact) = pure hints.fact :=
    Data.asOption_ofOption fun f _ => ⟨rfl, nofun⟩
  rw [paths, List.flatMap_append, List.forall_mem_append] at h
  simp [read, write, hfact, AccessPath.asOption_ofOption _ h.1, AccessPath.asOption_ofOption _ h.2]

namespace Expr

variable {levels : ℕ} {expr : Data → Decode Expr} {costs : Costs}

theorem writeWith_ne_null (e : Expr) (costs : Costs) : e.writeWith costs ≠ .null := by cases e <;> exact nofun

/-- The reader reads the tree with any costs, if its data has at most so many levels. -/
def Reads (levels : ℕ) (expr : Data → Decode Expr) (e : Expr) : Prop :=
  ∀ costs : Costs, (e.writeWith costs).depth ≤ levels → expr (e.writeWith costs) = pure e

theorem asList_writeList {es : List Expr} (hexpr : ∀ e ∈ es, e.Reads levels expr)
    (hlevels : depthOfList (writeList costs es) ≤ levels) : asList expr (.list (writeList costs es)) = pure es := by
  induction es generalizing costs with
  | nil => rfl
  | cons e es ih =>
    obtain ⟨he, hes⟩ := List.forall_mem_cons.1 hexpr
    obtain ⟨hfirst, hrest⟩ := max_le_iff.1 hlevels
    rw [writeList, asList_cons, he _ hfirst, pure_bind, ih hes hrest, pure_bind]

theorem readWith_writeKey {k : SortKey Expr} (hexpr : k.key.Reads levels expr)
    (hlevels : (writeKey costs k).depth ≤ levels) : SortKey.readWith expr (writeKey costs k) = pure k := by
  obtain ⟨e, ascending⟩ := k
  simp only [writeKey, depth, depthOfFields, depthOfField] at hlevels
  have hlevels : (writeWith costs e).depth ≤ levels := by omega
  have he : expr (writeWith costs e) = pure e := hexpr costs hlevels
  simp [SortKey.readWith, writeKey, he]

theorem asList_writeKeys {keys : List (SortKey Expr)} (hexpr : ∀ k ∈ keys, k.key.Reads levels expr)
    (hlevels : depthOfList (writeKeys costs keys) ≤ levels) :
    asList (SortKey.readWith expr) (.list (writeKeys costs keys)) = pure keys := by
  induction keys generalizing costs with
  | nil => rfl
  | cons k keys ih =>
    obtain ⟨hk, hkeys⟩ := List.forall_mem_cons.1 hexpr
    obtain ⟨hfirst, hrest⟩ := max_le_iff.1 hlevels
    rw [writeKeys, asList_cons, readWith_writeKey hk hfirst, pure_bind, ih hkeys hrest, pure_bind]

theorem asOption_writeOption {on : Option Expr} (hexpr : ∀ e ∈ on, e.Reads levels expr)
    (hlevels : (writeOption costs on).depth ≤ levels) : asOption expr (writeOption costs on) = pure on := by
  cases on with
  | none => rfl
  | some e =>
    show asOption expr (ofOption (writeWith costs) (some e)) = _
    refine asOption_ofOption fun e' he' => ?_
    obtain rfl := Option.some.inj he'
    exact ⟨hexpr e rfl costs hlevels, e.writeWith_ne_null costs⟩

theorem readWith_writeFilterKind {kind : FilterKind Expr} (hexpr : ∀ e ∈ kind.parts, e.Reads levels expr)
    (hpath : ∀ r ∈ kind.path?.toList.flatMap AccessPath.ranges, r.Storable)
    (hlevels : (writeFilterKind costs kind).depth ≤ levels) :
    FilterKind.readWith expr (writeFilterKind costs kind) = pure kind := by
  cases kind with
  | select predicate path =>
    simp only [writeFilterKind, variant, depth, depthOfFields, depthOfField] at hlevels
    have hpredicate := hexpr predicate List.mem_cons_self (costs.part 0) (by omega)
    have hpath := AccessPath.asOption_ofOption path hpath
    simp [FilterKind.readWith, writeFilterKind, hpredicate, hpath]
  | sort keys path =>
    simp only [writeFilterKind, variant, depth, depthOfFields, depthOfField] at hlevels
    have hkeys : asList (SortKey.readWith expr) (.list (writeKeys costs keys)) = pure keys :=
      asList_writeKeys (fun k hk => hexpr k.key (List.mem_map_of_mem hk)) (by omega)
    have hpath := AccessPath.asOption_ofOption path hpath
    simp [FilterKind.readWith, writeFilterKind, hkeys, hpath]
  | guard predicate =>
    simp only [writeFilterKind, variant, depth, depthOfFields, depthOfField] at hlevels
    have hpredicate := hexpr predicate List.mem_cons_self (costs.part 0) (by omega)
    simp [FilterKind.readWith, writeFilterKind, hpredicate]
  | computed => simp [FilterKind.readWith, writeFilterKind]
  | aggregate groupBy =>
    simp only [writeFilterKind, variant, depth, depthOfFields, depthOfField] at hlevels
    have hkeys : asList expr (.list (writeList costs groupBy)) = pure groupBy := asList_writeList hexpr (by omega)
    simp [FilterKind.readWith, writeFilterKind, hkeys]

/-! ### Trees -/

/-- A reader that reads the content of a node reads the node, whatever its cost. -/
theorem readAt_writeNode {kind : String} {content : Data} {e : Expr} (cost : Option (Cost Float))
    (h : readKind (readAt levels) (variant kind content) = pure e) :
    readAt (levels + 1) (writeNode kind content cost) = pure e := by
  simp [readAt, writeNode, h]

theorem reads_readAt {e : Expr} (h : e.RangesIn KeyRange.Storable) (levels : ℕ) :
    e.Reads levels (readAt levels) := by
  induction h generalizing levels with
  | intro e own parts ih =>
    intro costs hlevels
    cases levels with
    | zero => exact absurd hlevels (Nat.not_le.2 (depth_pos _))
    | succ levels =>
      have hpart : ∀ e' ∈ e.parts, e'.Reads levels (readAt levels) := fun e' he' => ih e' he' levels
      cases e with
      | column | literal | table => exact readAt_writeNode _ (by simp [readKind])
      | aliased name source =>
        simp only [writeWith, writeNode, variant, depth, depthOfFields, depthOfField] at hlevels
        have hsource := hpart source List.mem_cons_self (costs.part 0) (by omega)
        exact readAt_writeNode _ (by simp [readKind, hsource])
      | apply op args =>
        simp only [writeWith, writeNode, variant, depth, depthOfFields, depthOfField] at hlevels
        have hargs : asList (readAt levels) (.list (writeList costs args)) = pure args :=
          asList_writeList hpart (by omega)
        exact readAt_writeNode _ (by simp [readKind, hargs, FunctionOp.read_write own])
      | filter kind child =>
        simp only [writeWith, writeFilter, writeNode, variant, depth, depthOfFields, depthOfField] at hlevels
        have hchild := hpart child List.mem_cons_self (costs.part 0) (by omega)
        have hkind : FilterKind.readWith (readAt levels) (writeFilterKind costs.rest kind) = pure kind :=
          readWith_writeFilterKind (fun e he => hpart e (List.mem_cons_of_mem _ he)) own (by omega)
        exact readAt_writeNode _ (by simp [readKind, hchild, hkind])
      | join kind left right on hints =>
        simp only [writeWith, writeJoin, writeNode, variant, depth, depthOfFields, depthOfField] at hlevels
        have hleft := hpart left (by simp [Expr.parts]) (costs.part 0) (by omega)
        have hright := hpart right (by simp [Expr.parts]) (costs.part 1) (by omega)
        have hon : asOption (readAt levels) (writeOption (costs.part 2) on) = pure on :=
          asOption_writeOption (fun e he => hpart e (by simp [Expr.parts, Option.mem_def.1 he])) (by omega)
        exact readAt_writeNode _ (by simp [readKind, hleft, hright, hon, JoinHints.read_write own])

/-- A tree that was written with costs or without is read as it is, without them. -/
theorem read_writeWith {e : Expr} (h : e.RangesIn KeyRange.Storable) (costs : Costs) (tolerance : Tolerance) :
    Expr.read (e.writeWith costs) tolerance = .ok e :=
  congrFun (reads_readAt h _ costs le_rfl) tolerance

end Expr

/-- The costs of a node from those of its first parts; the other parts have none. -/
def Costs.node (cost : Option (Cost Float)) (parts : List Costs) : Costs
  | [] => cost
  | i :: place => (parts[i]?).getD .none place

@[simp] theorem Costs.node_nil_of_none : Costs.node .none [] = .none := by
  funext place
  cases place <;> rfl

theorem Costs.rest_node (cost : Option (Cost Float)) (first : Costs) (parts : List Costs) :
    (Costs.node cost (first :: parts)).rest = .node .none parts := by
  funext place
  cases place <;> rfl

namespace Plan

/-- The costs of a plan by their places in its tree. -/
def costs : Plan Float → Costs
  | leaf _ cost => .node cost []
  | filter _ child cost => .node cost [child.costs]
  | join _ left right _ _ cost => .node cost [left.costs, right.costs]

theorem write_eq (p : Plan Float) : p.write = p.toExpr.writeWith p.costs := by
  induction p with
  | leaf e cost =>
    have hroot : (leaf e cost).costs = Costs.root cost := by
      funext place
      cases place <;> rfl
    rw [hroot]
    rfl
  | filter kind child cost ih =>
    rw [write, ih, costs, toExpr, Expr.writeWith, Costs.rest_node, Costs.node_nil_of_none]
    rfl
  | join kind left right on hints cost ihl ihr =>
    rw [write, ihl, ihr]
    rfl

end Plan

end JoinPlanner
