import Spanbarn.Filter.Select
import Spanbarn.Schemes.TwoRuns

/-! Group-by tables and their drill-down filters.

    A group-by query labels every span it scans with the text of its group keys, the empty text where a
    key is missing, and returns a row per label. The row carries a filter meant to select its spans:

        labels  (GET, "", 200)   ⟶   base AND method = GET AND user does-not-exist AND status = 200

    The label is a text, the condition is not: the empty label asks for a missing key, and a label that
    parses as a number is compared as one. The two agree except on the values listed in `Lost` and
    `Stray`, and as long as the filter keeps to the limits of the filter model. -/

namespace Spanbarn.Analyze
open List Spanbarn.Schemes Spanbarn.Filter

variable {F : Type}

/-! ### Drill-down filters -/

/-- `ValidateKey`. -/
def validateKey (key : String) : Except FilterError Unit :=
  validateCondition (.mk key .exists "" [] .unset [])

/-- The condition that selects spans whose key reads as `value`. -/
def groupCondition (key value : String) : Node :=
  if value = "" then .mk key .notExists "" [] .unset [] else .mk key .eq value [] .unset []

/-- A group without a key of its own. -/
def groupNode (mode : Mode) (filters : List Node) : Node := .mk "" (.other "") "" [] mode filters

@[simp] theorem groupNode_filters (mode : Mode) (filters : List Node) :
    (groupNode mode filters).filters = filters := rfl

/-- `base AND conds` as one expression; `none` when it would nest groups two levels deep. -/
def conjoin (base : Option Node) (conds : List Node) : Option Node :=
  match base with
  | none => some (groupNode .and conds)
  | some base =>
    if base.filters = [] then some (groupNode .and conds)
    else if base.mode ≠ .or ∨ base.filters.length = 1 then some (groupNode .and (base.filters ++ conds))
    else if base.filters.any fun n => decide (n.filters.length > 0) then none
    else some (groupNode .and (groupNode .or base.filters :: conds))

/-! ### The query -/

/-- The part of a request that names spans. -/
structure AnalyzeRequest where
  expr : Option Node
  groupBy : List String

structure AnalyzeRow where
  group : List String
  other : Bool
  drill : Option Node

inductive AnalyzeError where
  | filter (e : FilterError)
  | tooManyKeys
  | groupTwice (key : String)
  deriving DecidableEq, Repr

def maxAnalyzeGroupBy : ℕ := 4

def validateGroupBy (seen : List String) : List String → Except AnalyzeError Unit
  | [] => .ok ()
  | k :: ks =>
    match validateKey k with
    | .error e => .error (.filter e)
    | .ok _ => if k ∈ seen then .error (.groupTwice k) else validateGroupBy (k :: seen) ks

def AnalyzeRequest.validate (req : AnalyzeRequest) : Except AnalyzeError Unit :=
  if maxAnalyzeGroupBy < req.groupBy.length then .error .tooManyKeys else validateGroupBy [] req.groupBy

def AnalyzeRequest.drill (req : AnalyzeRequest) (group : List String) : Option Node :=
  conjoin req.expr (List.zipWith groupCondition req.groupBy group)

/-- A row of the response; the row of the groups beyond the limit has no drill-down filter. -/
def AnalyzeRequest.toRow (req : AnalyzeRequest) (group : List String) (other : Bool) : AnalyzeRow :=
  ⟨group, other, if other = false ∧ group ≠ [] then req.drill group else none⟩

/-- The operands of the group keys. -/
def operands (r : Option (KeyResolver F)) :
    List String → Except FilterError (List (Operand (Bound (Arg F))))
  | [] => .ok []
  | k :: ks =>
    match resolve r k with
    | .error e => .error e
    | .ok o => (operands r ks).map (o :: ·)

/-- `COALESCE(text, '')`. -/
def label (sq : Sqlite F) (s : Span F) (o : Operand (Bound (Arg F))) : String :=
  (o.textValue sq s).getD ""

def labels (sq : Sqlite F) (os : List (Operand (Bound (Arg F)))) (s : Span F) : List String :=
  os.map (label sq s)

/-- The rows for the groups of the spans that are read. -/
def groupRows (req : AnalyzeRequest) (kept : List String → Bool) (groups : List (List String)) :
    List AnalyzeRow :=
  (groups.filter kept).map (req.toRow · false) ++ if groups.all kept then [] else [req.toRow [] true]

/-- `Analyze`: `scanned` are the spans within the sample and the cap of the scan, `kept` the groups
    within the limit of the table. -/
def analyze (sq : Sqlite F) (parseFloat : String → Option F) (r : Option (KeyResolver F))
    (req : AnalyzeRequest) (scanned : Span F → Bool) (kept : List String → Bool)
    (spans : List (Span F)) :
    Except AnalyzeError (List AnalyzeRow) :=
  match req.validate, operands r req.groupBy, selectWith parseFloat sq r req.expr with
  | .error e, _, _ => .error e
  | _, .error e, _ => .error (.filter e)
  | _, _, .error e => .error (.filter e)
  | .ok _, .ok os, .ok selected =>
    .ok (groupRows req kept
      ((spans.filter fun s => selected s && scanned s).map (labels sq os)).dedup)

/-! ### Validation of the conjunction -/

mutual

/-- The conditions of a filter. -/
def conditionCount : Node → ℕ
  | .mk _ _ _ _ _ filters => memberCount filters

def memberCount : List Node → ℕ
  | [] => 0
  | c :: rest => (if c.filters.length > 0 then conditionCount c else 1) + memberCount rest

end

def baseCount (base : Option Node) : ℕ := (base.map conditionCount).getD 0

/-- A condition and not a group. -/
def Leaf (c : Node) : Prop := c.filters.length = 0 ∧ c.mode = .unset

variable {depth m : ℕ}

/-- Members that pass begin with a condition that passes, or with a group that does. -/
theorem validateMembers_cons {count : ℕ} {c : Node} {rest : List Node} :
    validateMembers depth (c :: rest) count = .ok m ↔
      (Leaf c ∧ count < maxConditions ∧ validateCondition c = .ok () ∧
        validateMembers depth rest (count + 1) = .ok m) ∨
      (depth = 0 ∧ (c.key = "" ∧ c.op = .other "") ∧ 0 < c.filters.length ∧
        ∃ k, validateGroup (depth + 1) c count = .ok k ∧ validateMembers depth rest k = .ok m) := by
  rw [validateMembers, Leaf]
  split_ifs with hgroup hdepth hkey hempty hfull <;> grind [bind_ok]

theorem validateGroup_iff : ∀ {e : Node} {depth count m : ℕ}, validateGroup depth e count = .ok m ↔
    (∀ t, e.mode ≠ .other t) ∧ validateMembers depth e.filters count = .ok m
  | .mk _ _ _ _ mode filters, depth, count, m => by
    cases mode <;> simp [validateGroup, Node.mode, Node.filters]

mutual

/-- A group that passes counts its conditions. -/
theorem validateGroup_count : ∀ {e : Node} {depth count m : ℕ},
    validateGroup depth e count = .ok m → count ≤ maxConditions →
    m = count + conditionCount e ∧ m ≤ maxConditions
  | .mk _ _ _ _ mode filters, depth, count, m, h, hle => by
    have hmembers := (validateGroup_iff.mp h).2
    rw [conditionCount]
    exact validateMembers_count hmembers hle

theorem validateMembers_count : ∀ {fs : List Node} {depth count m : ℕ},
    validateMembers depth fs count = .ok m → count ≤ maxConditions →
    m = count + memberCount fs ∧ m ≤ maxConditions
  | [], depth, count, m, h, hle => by
    cases h
    exact ⟨rfl, hle⟩
  | c :: rest, depth, count, m, h, hle => by
    rw [memberCount]
    rcases validateMembers_cons.mp h with ⟨hleaf, hfits, -, h⟩ | ⟨-, -, hlen, k, hg, h⟩
    · obtain ⟨hm, hmle⟩ := validateMembers_count h hfits
      rw [if_neg (by simp [hleaf.1])]
      exact ⟨by omega, hmle⟩
    · obtain ⟨hk, hkle⟩ := validateGroup_count hg hle
      obtain ⟨hm, hmle⟩ := validateMembers_count h hkle
      rw [if_pos hlen]
      exact ⟨by omega, hmle⟩

end

theorem validateMembers_append {gs : List Node} : ∀ {fs : List Node} {count : ℕ},
    validateMembers depth (fs ++ gs) count = .ok m ↔
      ∃ k, validateMembers depth fs count = .ok k ∧ validateMembers depth gs k = .ok m
  | [], count => by simp [validateMembers]
  | c :: rest, count => by
    simp only [cons_append, validateMembers_cons, validateMembers_append]
    grind

/-- Conditions pass when each does and they are not too many. -/
theorem validateMembers_leaves : ∀ {cs : List Node} {count : ℕ}, (∀ c ∈ cs, Leaf c) →
    count ≤ maxConditions →
    ((∃ m, validateMembers depth cs count = .ok m) ↔
      count + cs.length ≤ maxConditions ∧ ∀ c ∈ cs, validateCondition c = .ok ())
  | [], count, _, hle => by simp [validateMembers, hle]
  | c :: rest, count, hleaf, hle => by
    obtain ⟨hc, hrest⟩ := forall_mem_cons.mp hleaf
    rw [forall_mem_cons, length_cons]
    simp only [validateMembers_cons, hc, hc.1, Nat.lt_irrefl, true_and, false_and, and_false, or_false,
      exists_and_left]
    constructor
    · rintro ⟨hfits, hv, hm⟩
      obtain ⟨hlen, hvs⟩ := (validateMembers_leaves hrest hfits).mp hm
      exact ⟨by omega, hv, hvs⟩
    · rintro ⟨hlen, hv, hvs⟩
      have hfits : count < maxConditions := by omega
      exact ⟨hfits, hv, (validateMembers_leaves hrest hfits).mpr ⟨by omega, hvs⟩⟩

/-- Members that are no groups pass at any depth. -/
theorem validateMembers_depth : ∀ {fs : List Node} {depth count m : ℕ},
    validateMembers depth fs count = .ok m → (∀ c ∈ fs, c.filters.length = 0) → ∀ depth',
    validateMembers depth' fs count = .ok m
  | [], _, _, _, h, _, _ => h
  | c :: rest, depth, count, m, h, hflat, depth' => by
    obtain ⟨hc, hrest⟩ := forall_mem_cons.mp hflat
    rcases validateMembers_cons.mp h with ⟨hleaf, hfits, hv, h⟩ | ⟨-, -, hlen, -⟩
    · exact validateMembers_cons.mpr (.inl ⟨hleaf, hfits, hv, validateMembers_depth h hrest depth'⟩)
    · omega

/-- What it takes to be a valid filter. -/
theorem validate_iff {e : Node} :
    validate e = .ok () ↔ (e.key = "" ∧ e.op = .other "") ∧ (∀ t, e.mode ≠ .other t) ∧
      ∃ m, validateMembers 0 e.filters 0 = .ok m := by
  unfold validate
  split
  · next hroot => grind
  · next hroot =>
    rw [not_or, not_not, not_not] at hroot
    simp [map_ok, validateGroup_iff, hroot]

/-- Members appended to a valid list. -/
theorem validateMembers_append_leaves {fs cs : List Node} (hfs : validateMembers depth fs 0 = .ok m)
    (hleaf : ∀ c ∈ cs, Leaf c) :
    ((∃ k, validateMembers depth (fs ++ cs) 0 = .ok k) ↔
      memberCount fs + cs.length ≤ maxConditions ∧ ∀ c ∈ cs, validateCondition c = .ok ()) := by
  obtain ⟨hm, hle⟩ := validateMembers_count hfs (Nat.zero_le _)
  rw [Nat.zero_add] at hm
  simp only [validateMembers_append, hfs, Except.ok.injEq, exists_eq_left', ← hm]
  exact validateMembers_leaves hleaf hle

theorem validate_groupNode_and {fs : List Node} :
    validate (groupNode .and fs) = .ok () ↔ ∃ m, validateMembers 0 fs 0 = .ok m := by
  rw [validate_iff]
  simp [groupNode, Node.key, Node.op, Node.mode, Node.filters]

/-- The conjunction is valid when it is not too long and its conditions are valid. -/
theorem validate_conjoin {base : Option Node} {cs : List Node} {e : Node}
    (hbase : ∀ b ∈ base, validate b = .ok ()) (hleaf : ∀ c ∈ cs, Leaf c)
    (he : conjoin base cs = some e) :
    validate e = .ok () ↔
      baseCount base + cs.length ≤ maxConditions ∧ ∀ c ∈ cs, validateCondition c = .ok () := by
  have hconds : validate (groupNode .and cs) = .ok () ↔
      0 + cs.length ≤ maxConditions ∧ ∀ c ∈ cs, validateCondition c = .ok () :=
    validate_groupNode_and.trans (validateMembers_leaves hleaf (Nat.zero_le _))
  cases base with
  | none =>
    cases he
    exact hconds
  | some b =>
    obtain ⟨_, hmode, m, hm⟩ := validate_iff.mp (hbase b rfl)
    have hcount : baseCount (some b) = memberCount b.filters := by
      obtain ⟨_, _, _, _, _, filters⟩ := b
      rfl
    rw [hcount]
    simp only [conjoin] at he
    split at he
    · next hempty =>
      cases he
      rw [hempty]
      exact hconds
    · split at he
      · cases he
        exact validate_groupNode_and.trans (validateMembers_append_leaves hm hleaf)
      · split at he
        · exact absurd he nofun
        · next hnonempty _ hflat =>
          cases he
          have hflat' : ∀ c ∈ b.filters, c.filters.length = 0 := by simpa using hflat
          have hlen : 0 < (groupNode .or b.filters).filters.length := length_pos_iff.mpr hnonempty
          -- the inner group holds the same conditions one level deeper
          have hinner : validateMembers 0 [groupNode .or b.filters] 0 = .ok m := by
            have hdeep : validateGroup 1 (groupNode .or b.filters) 0 = .ok m :=
              validateGroup_iff.mpr ⟨nofun, validateMembers_depth hm hflat' 1⟩
            exact validateMembers_cons.mpr (.inr ⟨rfl, ⟨rfl, rfl⟩, hlen, m, hdeep, rfl⟩)
          have hsame : memberCount [groupNode .or b.filters] = memberCount b.filters := by
            rw [memberCount, if_pos hlen]
            rfl
          rw [validate_groupNode_and, ← hsame]
          exact validateMembers_append_leaves hinner hleaf

/-! ### Selection by the conjunction -/

section select
variable {sq : Sqlite F} {parseFloat : String → Option F} {r : Option (KeyResolver F)}

theorem allHold_eq (s : Span F) : ∀ ps : List (SqlPred F),
    Pred.allHold sq s ps = ps.all (Pred.holds sq s)
  | [] => rfl
  | p :: ps => by rw [Pred.allHold, allHold_eq s ps, all_cons]

theorem anyHolds_eq (s : Span F) : ∀ ps : List (SqlPred F),
    Pred.anyHolds sq s ps = ps.any (Pred.holds sq s)
  | [] => rfl
  | p :: ps => by rw [Pred.anyHolds, anyHolds_eq s ps, any_cons]

/-- Members compile one by one. -/
theorem memberPreds_cons {c : Node} {rest : List Node} {ps : List (SqlPred F)} :
    memberPreds parseFloat (resolve r) (c :: rest) = .ok ps ↔ ∃ p,
      (if c.filters.length > 0 then groupPred parseFloat (resolve r) c
        else conditionPred parseFloat (resolve r) c) = .ok p ∧
      ∃ qs, memberPreds parseFloat (resolve r) rest = .ok qs ∧ p :: qs = ps := by
  simp [memberPreds, bind_ok]

theorem memberPreds_append {gs : List Node} : ∀ {fs : List Node} {ps : List (SqlPred F)},
    memberPreds parseFloat (resolve r) (fs ++ gs) = .ok ps ↔
      ∃ as, memberPreds parseFloat (resolve r) fs = .ok as ∧
      ∃ bs, memberPreds parseFloat (resolve r) gs = .ok bs ∧ as ++ bs = ps
  | [], ps => by simp [memberPreds]
  | c :: rest, ps => by
    simp only [cons_append, memberPreds_cons, memberPreds_append]
    grind

theorem memberPreds_length : ∀ {fs : List Node} {ps : List (SqlPred F)},
    memberPreds parseFloat (resolve r) fs = .ok ps → ps.length = fs.length
  | [], ps, h => by
    cases h
    rfl
  | c :: rest, ps, h => by
    obtain ⟨p, -, qs, hqs, rfl⟩ := memberPreds_cons.mp h
    rw [length_cons, length_cons, memberPreds_length hqs]

theorem groupPred_groupNode (mode : Mode) (fs : List Node) :
    groupPred parseFloat (resolve r) (groupNode mode fs) =
      (memberPreds parseFloat (resolve r) fs).map (.group mode) := by
  rw [groupNode, groupPred]
  cases memberPreds parseFloat (resolve r) fs <;> rfl

/-- A valid conjunction of members selects where all of them hold. -/
theorem selectWith_and {fs : List Node} (hne : fs ≠ []) (hvalid : validate (groupNode .and fs) = .ok ())
    {drilled : Span F → Bool} : selectWith parseFloat sq r (some (groupNode .and fs)) = .ok drilled ↔
      ∃ ps, memberPreds parseFloat (resolve r) fs = .ok ps ∧
        (fun s => ps.all (Pred.holds sq s)) = drilled := by
  have hlen : (groupNode .and fs).filters.length ≠ 0 := by
    simpa [groupNode, Node.filters] using hne
  simp only [selectWith, if_neg hlen, hvalid, groupPred_groupNode]
  cases memberPreds parseFloat (resolve r) fs <;>
    simp [Except.map, bind, Except.bind, funext_iff, Pred.holds, allHold_eq]

/-- The members of a filter that selects. -/
theorem memberPreds_of_select {b : Node} (hne : b.filters ≠ []) {selected : Span F → Bool}
    (h : selectWith parseFloat sq r (some b) = .ok selected) :
    ∃ ps, memberPreds parseFloat (resolve r) b.filters = .ok ps ∧
      ∀ s, selected s = if b.mode = .or then ps.any (Pred.holds sq s) else ps.all (Pred.holds sq s) := by
  have hlen : b.filters.length ≠ 0 := by simpa using hne
  obtain ⟨_, _, _, _, mode, filters⟩ := b
  simp only [selectWith, if_neg hlen, bind_ok, groupPred, Except.ok.injEq] at h
  obtain ⟨-, -, _, ⟨ps, hps, rfl⟩, rfl⟩ := h
  refine ⟨ps, hps, fun s => ?_⟩
  simp only [Pred.holds, allHold_eq, anyHolds_eq]
  rfl

/-- A valid conjunction selects what the base selects and the conditions hold of. -/
theorem select_conjoin {base : Option Node} {cs : List Node} {e : Node} (hcs : cs ≠ [])
    (he : conjoin base cs = some e) (hvalid : validate e = .ok ()) {selected drilled : Span F → Bool}
    (hsel : selectWith parseFloat sq r base = .ok selected) :
    selectWith parseFloat sq r (some e) = .ok drilled ↔
      ∃ ps, memberPreds parseFloat (resolve r) cs = .ok ps ∧
      (fun s => selected s && ps.all (Pred.holds sq s)) = drilled := by
  have hconds : ∀ {e' : Node}, e' = groupNode .and cs → validate e' = .ok () →
      (∀ s, selected s = true) → (selectWith parseFloat sq r (some e') = .ok drilled ↔
        ∃ ps, memberPreds parseFloat (resolve r) cs = .ok ps ∧
          (fun s => selected s && ps.all (Pred.holds sq s)) = drilled) := by
    rintro _ rfl hv hall
    rw [selectWith_and hcs hv]
    simp [hall]
  cases base with
  | none =>
    cases he
    cases hsel
    exact hconds rfl hvalid fun _ => rfl
  | some b =>
    simp only [conjoin] at he
    split at he
    · next hempty =>
      cases he
      simp only [selectWith, hempty, length_nil, if_true] at hsel
      cases hsel
      exact hconds rfl hvalid fun _ => rfl
    · next hne =>
      obtain ⟨ps, hps, hsel'⟩ := memberPreds_of_select hne hsel
      split at he
      · next hmode =>
        cases he
        have hall : ∀ s, selected s = ps.all (Pred.holds sq s) := by
          intro s
          rw [hsel' s]
          split
          · next hor =>
            -- a disjunction of one member is that member
            have hone := hmode.resolve_left (absurd hor)
            rw [← memberPreds_length hps] at hone
            obtain ⟨p, rfl⟩ := length_eq_one_iff.mp hone
            simp
          · rfl
        rw [selectWith_and (by simp [hne]) hvalid]
        simp [memberPreds_append, hps, hall]
      · next hmode =>
        split at he
        · cases he
        · cases he
          have hor : b.mode = .or := not_not.mp fun hor => hmode (.inl hor)
          rw [selectWith_and (cons_ne_nil _ _) hvalid]
          simp [memberPreds_cons, groupPred_groupNode, hps, hsel', hor, length_pos_iff.mpr hne,
            Except.map, Pred.holds, anyHolds_eq]

end select

/-! ### Labels and conditions -/

section labels
variable {sq : Sqlite F} {parseFloat : String → Option F} {r : Option (KeyResolver F)}

/-- The number a label is compared as. -/
def asNumber (parseFloat : String → Option F) : Operand (Bound (Arg F)) → String → Option F
  | .column c, v => if c.colKind = .int then parseFloat v else none
  | .attr _, _ => none
  | .field _, v => parseFloat v

/-- The value is a number equal to a bound one. -/
def numEq (sq : Sqlite F) (f : F) : Value F → Bool
  | .int n => !sq.isNaN f && sq.cmpInt n f = .eq
  | .real y => !sq.isNaN f && sq.cmpReal y f = .eq
  | _ => false

def isTextColumn : Operand (Bound (Arg F)) → Bool
  | .column c => c.colKind = .text
  | _ => false

/-- A value whose label is `v` but which the condition for `v` misses: the empty text outside a text
    column; or, where `v` is compared as a number, anything but that number. -/
def Lost (sq : Sqlite F) (parseFloat : String → Option F) (o : Operand (Bound (Arg F))) (v : String)
    (x : Value F) : Prop :=
  if v = "" then isTextColumn o = false ∧ x = .text ""
  else ∃ f, asNumber parseFloat o v = some f ∧ numEq sq f x = false

/-- A number the condition for `v` takes whatever its label is. -/
def Stray (sq : Sqlite F) (parseFloat : String → Option F) (o : Operand (Bound (Arg F))) (v : String)
    (x : Value F) : Prop :=
  v ≠ "" ∧ ∃ f, asNumber parseFloat o v = some f ∧ numEq sq f x = true

/-- The condition for a label, over the operand of its key. -/
def labelPred (parseFloat : String → Option F) (o : Operand (Bound (Arg F))) (v : String) :
    Option (SqlPred F) :=
  if v = "" then some (.absent o)
  else
    match asNumber parseFloat o v with
    | some f => some (.equals (.number o) (.real f))
    | none => if o.isInt then none else some (.equals (.text o) (.text v))

variable {x : Value F} {o : Operand (Bound (Arg F))} {v : String}

theorem cast_eq_none : sq.cast x = none ↔ x = .null := by
  cases x <;> simp [Sqlite.cast]

/-- A number does not read as the empty text. -/
theorem cast_eq_empty : sq.cast x = some "" ↔ x = .text "" := by
  cases x with
  | int n => cases n <;> simp [Sqlite.cast, toString, Int.repr]
  | real f => simp [Sqlite.cast, sq.castReal_ne]
  | _ => simp [Sqlite.cast]

theorem print_eq_none : sq.print x = none ↔ x = .null := by
  cases x <;> simp [Sqlite.print, Sqlite.cast]

theorem print_eq_empty : sq.print x = some "" ↔ x = .text "" := by
  cases x with
  | int n => cases n <;> simp [Sqlite.print, Sqlite.cast, toString, Int.repr]
  | real f => simp [Sqlite.print, sq.printf15_ne]
  | _ => simp [Sqlite.print, Sqlite.cast]

theorem colKind_of_isTextColumn {c : Column}
    (h : isTextColumn (.column c : Operand (Bound (Arg F))) = false) :
    c.colKind = .int := by
  cases hk : c.colKind with
  | int => rfl
  | text => simp [isTextColumn, hk] at h

/-- Outside text columns the label is empty for a missing value and for the empty text. -/
theorem label_eq_empty {s : Span F} (ho : isTextColumn o = false) :
    label sq s o = "" ↔ o.value s = .null ∨ o.value s = .text "" := by
  have hsplit : label sq s o = "" ↔ o.textValue sq s = none ∨ o.textValue sq s = some "" := by
    unfold label
    cases o.textValue sq s <;> simp
  rw [hsplit]
  cases o with
  | column c =>
    simp [Operand.textValue, Operand.value, Span.column, if_pos (colKind_of_isTextColumn ho),
      cast_eq_none, cast_eq_empty]
  | field x => simp [Operand.textValue, Operand.value, print_eq_none, print_eq_empty]
  | attr path =>
    simp only [Operand.textValue, Operand.value]
    split
    · next b hb =>
      simp only [Span.extract, hb, Option.map_some, Json.extract, Option.getD_some]
      cases b <;> simp
    · rw [cast_eq_none, cast_eq_empty]

theorem absent_holds {s : Span F} (ho : isTextColumn o = false) :
    (Pred.absent o).holds sq s = true ↔ o.value s = .null := by
  cases o with
  | column c =>
    simp only [Pred.holds, Operand.isPresent, Operand.value, Span.column,
      if_pos (colKind_of_isTextColumn ho)]
    cases s.numbers c <;> simp
  | field x =>
    simp only [Pred.holds, Operand.isPresent, Operand.value]
    cases s.field x <;> simp
  | attr path =>
    simp only [Pred.holds, Operand.isPresent, Operand.value]
    cases s.extract path <;> simp

/-- Equality as numbers. -/
theorem equals_number_holds {s : Span F} {f : F} (hf : asNumber parseFloat o v = some f) :
    (Pred.equals (.number o) (.real f)).holds sq s = numEq sq f (o.value s) := by
  have haff : (Reading.number o).hasTextAffinity = false := by
    cases o with
    | column c =>
      simp only [asNumber] at hf
      split at hf
      · next hint => simp [Reading.hasTextAffinity, hint]
      · exact absurd hf nofun
    | field x => rfl
    | attr path => rfl
  have hvalue : numEq sq f (o.value s) = numEq sq f (o.numberValue s) := by
    cases o with
    | column c => rfl
    | field x =>
      simp only [Operand.value, Operand.numberValue]
      cases s.field x <;> rfl
    | attr path => exact absurd hf nofun
  rw [hvalue]
  simp only [Pred.holds, Pred.against, Reading.value, Reading.bind, haff, Bool.false_eq_true, if_false]
  cases hnan : sq.isNaN f <;> cases o.numberValue s <;> simp [Sqlite.compare, numEq, hnan]

/-- Equality as texts. -/
theorem equals_text_holds {s : Span F} (hv : v ≠ "") :
    (Pred.equals (.text o) (.text v)).holds sq s = true ↔ label sq s o = v := by
  rw [Pred.holds, decide_eq_true_eq]
  simp only [Pred.against, Reading.value, Reading.bind, label]
  cases o.textValue sq s with
  | none => simp [Value.ofText, Sqlite.compare, hv.symm]
  | some t => simp [Value.ofText, Sqlite.compare]

/-- What the condition of a label takes: the spans with the label and no lost value, and the strays. -/
theorem labelPred_holds {s : Span F} {p : SqlPred F} (hp : labelPred parseFloat o v = some p) :
    p.holds sq s = true ↔
      (label sq s o = v ∧ ¬Lost sq parseFloat o v (o.value s)) ∨
      (label sq s o ≠ v ∧ Stray sq parseFloat o v (o.value s)) := by
  unfold labelPred at hp
  split at hp
  · next hv =>
    cases hp
    subst hv
    simp only [Lost, Stray, if_true, ne_eq, not_true_eq_false, false_and, and_false, or_false]
    cases ho : isTextColumn o with
    | false =>
      rw [absent_holds ho, label_eq_empty ho]
      simp only [true_and]
      constructor
      · intro hnull
        exact ⟨.inl hnull, by simp [hnull]⟩
      · rintro ⟨hnull | htext, hlost⟩
        · exact hnull
        · exact absurd htext hlost
    | true =>
      cases o with
      | column c =>
        have htext : c.colKind = .text := by simpa [isTextColumn] using ho
        simp [Pred.holds, Operand.isPresent, label, Operand.textValue, htext]
      | field x | attr path => exact absurd ho nofun
  · next hv =>
    simp only [Lost, Stray, ne_eq, hv, not_false_eq_true, true_and, if_false]
    cases hf : asNumber parseFloat o v with
    | some f =>
      simp only [hf, Option.some.injEq] at hp
      subst hp
      rw [equals_number_holds hf]
      cases hnum : numEq sq f (o.value s) with
      | true => simp [hnum, em]
      | false => simp [hnum]
    | none =>
      simp only [hf] at hp
      split at hp
      · exact absurd hp nofun
      · cases hp
        rw [equals_text_holds hv]
        simp

/-- The condition of a label compiles unless it asks an integer column for a text. -/
theorem labelPred_isSome :
    (∃ p, labelPred parseFloat o v = some p) ↔
      (o.isInt = true → v ≠ "" → (parseFloat v).isSome = true) := by
  unfold labelPred
  split
  · next hv => simp [hv]
  · next hv =>
    cases o with
    | column c =>
      simp only [asNumber, Operand.isInt, decide_eq_true_eq]
      by_cases hint : c.colKind = .int
      · rw [if_pos hint]
        cases parseFloat v <;> simp [hint, hv]
      · simp [hint]
    | field x =>
      simp only [asNumber, Operand.isInt]
      cases parseFloat v <;> simp
    | attr path => simp [asNumber, Operand.isInt]

/-- The condition of a group key compiles to the condition of its label. -/
theorem conditionPred_groupCondition {key : String} (ho : resolve r key = .ok o) :
    (conditionPred parseFloat (resolve r) (groupCondition key v)).toOption =
      labelPred parseFloat o v := by
  unfold groupCondition labelPred
  split
  · simp [conditionPred, Node.key, ho, bind, Except.bind, operandPred, Node.op, Except.toOption]
  · simp only [conditionPred, Node.key, ho, bind, Except.bind, operandPred, Node.op, equalityPred,
      equalityReading, Node.value, numArg]
    cases o with
    | column c =>
      simp only [Operand.isInt, asNumber, decide_eq_true_eq]
      by_cases hint : c.colKind = .int
      · simp only [if_pos hint]
        cases parseFloat v <;> simp [Except.toOption]
      · simp [if_neg hint, Except.toOption]
    | field x =>
      simp only [Operand.isInt, asNumber]
      cases parseFloat v <;> simp [Except.toOption]
    | attr path => simp [Operand.isInt, asNumber, Except.toOption]

theorem groupCondition_leaf (key v : String) : Leaf (groupCondition key v) := by
  unfold groupCondition
  split <;> exact ⟨rfl, rfl⟩

/-- The key rules of a condition. -/
def KeyOk (key : String) : Prop :=
  ¬(key = "" ∨ maxKeyLen < key.utf8ByteSize ∨
    key.toList.any (fun ch => ch = '"' || ch = '\\' || ch = '\x00') = true)

theorem validateCondition_presence {c : Node} (hop : c.op = .exists ∨ c.op = .notExists) :
    validateCondition c = .ok () ↔ KeyOk c.key := by
  unfold validateCondition KeyOk
  split
  · next hbad => exact iff_of_false nofun (not_not.mpr hbad)
  · next hok =>
    refine iff_of_true ?_ hok
    rcases hop with hop | hop <;> rw [hop]

theorem validateCondition_equality {c : Node} (hop : c.op = .eq) :
    validateCondition c = .ok () ↔ KeyOk c.key ∧ c.value.utf8ByteSize ≤ maxValueLen := by
  unfold validateCondition KeyOk
  split
  · next hbad => exact iff_of_false nofun fun h => h.1 hbad
  · next hok =>
    rw [hop]
    dsimp only
    split
    · next hlong => exact iff_of_false nofun fun h => Nat.not_le.mpr hlong h.2
    · next hshort => exact iff_of_true rfl ⟨hok, Nat.not_lt.mp hshort⟩

/-- A condition on a valid key is valid when its value is short. -/
theorem validateCondition_groupCondition {key : String} (hkey : validateKey key = .ok ()) :
    validateCondition (groupCondition key v) = .ok () ↔ v.utf8ByteSize ≤ maxValueLen := by
  have hok : KeyOk key := (validateCondition_presence (.inl rfl)).mp hkey
  unfold groupCondition
  split
  · next hv =>
    rw [validateCondition_presence (.inr rfl), hv]
    exact iff_of_true hok (by decide)
  · rw [validateCondition_equality rfl]
    exact and_iff_right hok

/-- The label can be written as a condition on the operand. -/
def Askable (parseFloat : String → Option F) (p : Operand (Bound (Arg F)) × String) : Prop :=
  p.1.isInt = true → p.2 ≠ "" → (parseFloat p.2).isSome = true

/-- The condition of a label takes the span. -/
def Takes (sq : Sqlite F) (parseFloat : String → Option F) (s : Span F)
    (p : Operand (Bound (Arg F)) × String) : Prop :=
  (label sq s p.1 = p.2 ∧ ¬Lost sq parseFloat p.1 p.2 (p.1.value s)) ∨
    (label sq s p.1 ≠ p.2 ∧ Stray sq parseFloat p.1 p.2 (p.1.value s))

theorem operands_cons {k : String} {ks : List String} {os : List (Operand (Bound (Arg F)))}
    (h : operands r (k :: ks) = .ok os) :
    ∃ o os', os = o :: os' ∧ resolve r k = .ok o ∧ operands r ks = .ok os' := by
  rw [operands] at h
  split at h
  · exact absurd h nofun
  · next o hk =>
    obtain ⟨os', hks, rfl⟩ := map_ok.mp h
    exact ⟨o, os', rfl, hk, hks⟩

/-- The conditions of a row compile one by one. -/
theorem memberPreds_row {k : String} (hk : resolve r k = .ok o) (rest : List Node)
    {ps : List (SqlPred F)} :
    memberPreds parseFloat (resolve r) (groupCondition k v :: rest) = .ok ps ↔ ∃ p,
      labelPred parseFloat o v = some p ∧
        ∃ qs, memberPreds parseFloat (resolve r) rest = .ok qs ∧ p :: qs = ps := by
  rw [memberPreds_cons, ← conditionPred_groupCondition (v := v) hk, (groupCondition_leaf k v).1]
  cases conditionPred parseFloat (resolve r) (groupCondition k v) <;> simp [Except.toOption]

/-- The conditions of a row compile when every label can be asked for. -/
theorem memberPreds_isOk : ∀ {keys : List String} {os : List (Operand (Bound (Arg F)))}
    {vs : List String}, operands r keys = .ok os →
    ((∃ ps, memberPreds parseFloat (resolve r) (List.zipWith groupCondition keys vs) = .ok ps) ↔
      ∀ p ∈ os.zip vs, Askable parseFloat p)
  | [], os, vs, h => by
    cases h
    simp [memberPreds]
  | k :: ks, os, [], h => by simp [memberPreds]
  | k :: ks, os, v :: vs, h => by
    obtain ⟨o, os', rfl, hk, hks⟩ := operands_cons h
    rw [zipWith_cons_cons, zip_cons_cons, forall_mem_cons, ← memberPreds_isOk hks]
    have hask : Askable parseFloat (o, v) ↔ ∃ p, labelPred parseFloat o v = some p :=
      labelPred_isSome.symm
    simp only [memberPreds_row hk, hask]
    constructor
    · rintro ⟨_, p, hp, qs, hqs, -⟩
      exact ⟨⟨p, hp⟩, qs, hqs⟩
    · rintro ⟨⟨p, hp⟩, qs, hqs⟩
      exact ⟨_, p, hp, qs, hqs, rfl⟩

/-- They hold of the spans that each of them takes. -/
theorem memberPreds_hold {s : Span F} : ∀ {keys : List String} {os : List (Operand (Bound (Arg F)))}
    {vs : List String} {ps : List (SqlPred F)}, operands r keys = .ok os →
    memberPreds parseFloat (resolve r) (List.zipWith groupCondition keys vs) = .ok ps →
    (ps.all (Pred.holds sq s) = true ↔ ∀ p ∈ os.zip vs, Takes sq parseFloat s p)
  | [], os, vs, ps, h, hps => by
    cases h
    cases hps
    simp
  | k :: ks, os, [], ps, h, hps => by
    cases hps
    simp
  | k :: ks, os, v :: vs, ps, h, hps => by
    obtain ⟨o, os', rfl, hk, hks⟩ := operands_cons h
    rw [zipWith_cons_cons, memberPreds_row hk] at hps
    obtain ⟨p, hp, qs, hqs, rfl⟩ := hps
    rw [all_cons, Bool.and_eq_true, zip_cons_cons, forall_mem_cons,
      memberPreds_hold hks hqs, labelPred_holds hp]
    rfl

/-- A row of labels, key by key. -/
theorem labels_eq_iff {s : Span F} : ∀ {os : List (Operand (Bound (Arg F)))} {vs : List String},
    os.length = vs.length → (labels sq os s = vs ↔ ∀ p ∈ os.zip vs, label sq s p.1 = p.2)
  | [], [], _ => by simp [labels]
  | o :: os, v :: vs, h => by
    have ih := labels_eq_iff (s := s) (Nat.succ.inj h : os.length = vs.length)
    rw [zip_cons_cons, forall_mem_cons, ← ih, labels, map_cons, List.cons.injEq]
    rfl

end labels

/-! ### Drill-down selects its group -/

/-- The filter keeps to the limits, and its conditions tell the spans of the group from the others. -/
structure Identified (sq : Sqlite F) (parseFloat : String → Option F) (base : Option Node)
    (os : List (Operand (Bound (Arg F)))) (group : List String) (spans : List (Span F)) : Prop where
  fits : baseCount base + group.length ≤ maxConditions
  short : ∀ v ∈ group, v.utf8ByteSize ≤ maxValueLen
  askable : ∀ p ∈ os.zip group, Askable parseFloat p
  own : ∀ s ∈ spans, labels sq os s = group →
    ∀ p ∈ os.zip group, ¬Lost sq parseFloat p.1 p.2 (p.1.value s)
  others : ∀ s ∈ spans, labels sq os s ≠ group → ∃ p ∈ os.zip group,
    (label sq s p.1 = p.2 ∧ Lost sq parseFloat p.1 p.2 (p.1.value s)) ∨
    (label sq s p.1 ≠ p.2 ∧ ¬Stray sq parseFloat p.1 p.2 (p.1.value s))

section drill
variable {sq : Sqlite F} {parseFloat : String → Option F} {r : Option (KeyResolver F)}

theorem not_takes {s : Span F} {p : Operand (Bound (Arg F)) × String} :
    ¬Takes sq parseFloat s p ↔
      (label sq s p.1 = p.2 ∧ Lost sq parseFloat p.1 p.2 (p.1.value s)) ∨
      (label sq s p.1 ≠ p.2 ∧ ¬Stray sq parseFloat p.1 p.2 (p.1.value s)) := by
  unfold Takes
  by_cases h : label sq s p.1 = p.2 <;> simp [h]

/-- On the spans of the base, the conditions of a row take its group and nothing else. -/
theorem takes_group_iff {os : List (Operand (Bound (Arg F)))} {group : List String}
    (hlen : os.length = group.length) {spans : List (Span F)} :
    (∀ s ∈ spans, (∀ p ∈ os.zip group, Takes sq parseFloat s p) ↔ labels sq os s = group) ↔
      (∀ s ∈ spans, labels sq os s = group →
        ∀ p ∈ os.zip group, ¬Lost sq parseFloat p.1 p.2 (p.1.value s)) ∧
      ∀ s ∈ spans, labels sq os s ≠ group → ∃ p ∈ os.zip group,
        (label sq s p.1 = p.2 ∧ Lost sq parseFloat p.1 p.2 (p.1.value s)) ∨
        (label sq s p.1 ≠ p.2 ∧ ¬Stray sq parseFloat p.1 p.2 (p.1.value s)) := by
  simp only [← not_takes]
  constructor
  · refine fun h => ⟨fun s hs hgroup p hp hlost => ?_, fun s hs hother => ?_⟩
    · have hlabel := (labels_eq_iff hlen).mp hgroup p hp
      exact not_takes.mpr (.inl ⟨hlabel, hlost⟩) ((h s hs).mpr hgroup p hp)
    · by_contra hall
      refine hother ((h s hs).mp fun p hp => ?_)
      by_contra hnot
      exact hall ⟨p, hp, hnot⟩
  · rintro ⟨hown, hothers⟩ s hs
    constructor
    · intro htakes
      by_contra hother
      obtain ⟨p, hp, hnot⟩ := hothers s hs hother
      exact hnot (htakes p hp)
    · intro hgroup p hp
      exact .inl ⟨(labels_eq_iff hlen).mp hgroup p hp, hown s hs hgroup p hp⟩

theorem operands_length : ∀ {keys : List String} {os : List (Operand (Bound (Arg F)))},
    operands r keys = .ok os → os.length = keys.length
  | [], os, h => by
    cases h
    rfl
  | k :: ks, os, h => by
    obtain ⟨o, os', rfl, _, hks⟩ := operands_cons h
    rw [length_cons, length_cons, operands_length hks]

theorem validateGroupBy_keys : ∀ {keys seen : List String}, validateGroupBy seen keys = .ok () →
    ∀ k ∈ keys, validateKey k = .ok ()
  | [], _, _ => forall_mem_nil _
  | k :: ks, seen, h => by
    rw [validateGroupBy] at h
    split at h
    · exact absurd h nofun
    · next hk =>
      split at h
      · exact absurd h nofun
      · exact forall_mem_cons.mpr ⟨hk, validateGroupBy_keys h⟩

/-- The conditions of a row are valid when its labels are short. -/
theorem validateCondition_row : ∀ {keys vs : List String}, (∀ k ∈ keys, validateKey k = .ok ()) →
    keys.length = vs.length →
    ((∀ c ∈ List.zipWith groupCondition keys vs, validateCondition c = .ok ()) ↔
      ∀ v ∈ vs, v.utf8ByteSize ≤ maxValueLen)
  | [], [], _, _ => by simp
  | k :: ks, v :: vs, hkeys, hlen => by
    obtain ⟨hk, hks⟩ := forall_mem_cons.mp hkeys
    have ih := validateCondition_row hks (Nat.succ.inj hlen)
    rw [zipWith_cons_cons, forall_mem_cons, forall_mem_cons, ih,
      validateCondition_groupCondition hk]

/-- What a successful query tells about a row with a drill-down filter. -/
theorem row_spec {req : AnalyzeRequest} {scanned : Span F → Bool} {kept : List String → Bool}
    {spans : List (Span F)} {rows : List AnalyzeRow}
    (hrun : analyze sq parseFloat r req scanned kept spans = .ok rows) {row : AnalyzeRow}
    (hrow : row ∈ rows) {e : Node} (hdrill : row.drill = some e)
    {os : List (Operand (Bound (Arg F)))} (hos : operands r req.groupBy = .ok os) :
    (∀ k ∈ req.groupBy, validateKey k = .ok ()) ∧ row.group ≠ [] ∧
      row.group.length = req.groupBy.length ∧
      conjoin req.expr (List.zipWith groupCondition req.groupBy row.group) = some e := by
  unfold analyze at hrun
  cases hvalid : req.validate with
  | error err => simp [hvalid] at hrun
  | ok u =>
    have hkeys : ∀ k ∈ req.groupBy, validateKey k = .ok () := by
      unfold AnalyzeRequest.validate at hvalid
      split at hvalid
      · exact absurd hvalid nofun
      · exact validateGroupBy_keys hvalid
    cases hsel : selectWith parseFloat sq r req.expr with
    | error err => simp [hvalid, hos, hsel] at hrun
    | ok selected =>
      simp only [hvalid, hos, hsel, Except.ok.injEq] at hrun
      subst hrun
      rcases mem_append.mp hrow with hkept | hother
      · obtain ⟨group, hgroup, rfl⟩ := mem_map.mp hkept
        simp only [AnalyzeRequest.toRow, true_and] at hdrill ⊢
        split at hdrill
        · next hne =>
          refine ⟨hkeys, hne, ?_, hdrill⟩
          obtain ⟨s, _, rfl⟩ := mem_map.mp (mem_dedup.mp (mem_filter.mp hgroup).1)
          rw [labels, length_map, operands_length hos]
        · exact absurd hdrill nofun
      · split at hother
        · exact absurd hother not_mem_nil
        · rw [mem_singleton.mp hother] at hdrill
          exact absurd hdrill nofun

/-- CORRECT: the drill-down filter of a row is valid and selects the spans of its group exactly when it
    keeps to the limits of the filter model and its conditions tell the group from the other spans. -/
theorem drill_selects_group_iff {req : AnalyzeRequest} {scanned : Span F → Bool}
    {kept : List String → Bool} {spans : List (Span F)} {rows : List AnalyzeRow}
    (hexpr : ∀ b ∈ req.expr, validate b = .ok ())
    (hrun : analyze sq parseFloat r req scanned kept spans = .ok rows) {row : AnalyzeRow}
    (hrow : row ∈ rows) {e : Node} (hdrill : row.drill = some e) {selected : Span F → Bool}
    (hsel : selectWith parseFloat sq r req.expr = .ok selected)
    {os : List (Operand (Bound (Arg F)))} (hos : operands r req.groupBy = .ok os) :
    (validate e = .ok () ∧ ∃ drilled, selectWith parseFloat sq r (some e) = .ok drilled ∧
      ∀ s ∈ spans, drilled s = true ↔ selected s = true ∧ labels sq os s = row.group) ↔
    Identified sq parseFloat req.expr os row.group (spans.filter selected) := by
  obtain ⟨hkeys, hne, hlen, he⟩ := row_spec hrun hrow hdrill hos
  have hoslen : os.length = row.group.length := (operands_length hos).trans hlen.symm
  have hcslen : (List.zipWith groupCondition req.groupBy row.group).length = row.group.length := by
    rw [length_zipWith, hlen, Nat.min_self]
  have hcs : List.zipWith groupCondition req.groupBy row.group ≠ [] := by
    rw [← length_pos_iff, hcslen]
    exact length_pos_iff.mpr hne
  have hleaf : ∀ c ∈ List.zipWith groupCondition req.groupBy row.group, Leaf c := by
    intro c hc
    rw [zipWith_eq_zipWith_take_min, ← map_uncurry_zip_eq_zipWith] at hc
    obtain ⟨p, _, rfl⟩ := mem_map.mp hc
    exact groupCondition_leaf p.1 p.2
  have hvalid := validate_conjoin hexpr hleaf he
  rw [hcslen, validateCondition_row hkeys hlen.symm] at hvalid
  -- where the filter is valid, it selects by the conditions of the row
  have hselect : validate e = .ok () → ((∃ drilled, selectWith parseFloat sq r (some e) = .ok drilled ∧
        ∀ s ∈ spans, drilled s = true ↔ selected s = true ∧ labels sq os s = row.group) ↔
      (∀ p ∈ os.zip row.group, Askable parseFloat p) ∧
        ∀ s ∈ spans.filter selected,
          (∀ p ∈ os.zip row.group, Takes sq parseFloat s p) ↔ labels sq os s = row.group) := by
    intro hv
    simp only [select_conjoin hcs he hv hsel, ← memberPreds_isOk hos]
    cases hps : memberPreds parseFloat (resolve r)
        (List.zipWith groupCondition req.groupBy row.group) with
    | error err => simp
    | ok ps =>
      have hhold : ∀ s, ps.all (Pred.holds sq s) = true ↔
          ∀ p ∈ os.zip row.group, Takes sq parseFloat s p := fun s => memberPreds_hold hos hps
      simp only [Except.ok.injEq, ↓existsAndEq, Bool.and_eq_true, hhold, exists_eq',
        true_and, mem_filter, and_imp]
      refine forall₂_congr fun s _ => ?_
      constructor
      · intro h hs
        exact ⟨fun ht => (h.mp ⟨hs, ht⟩).2, fun hl => (h.mpr ⟨hs, hl⟩).2⟩
      · intro h
        exact ⟨fun ⟨hs, ht⟩ => ⟨hs, (h hs).mp ht⟩, fun ⟨hs, hl⟩ => ⟨hs, (h hs).mpr hl⟩⟩
  constructor
  · rintro ⟨hv, hdrilled⟩
    obtain ⟨hfits, hshort⟩ := hvalid.mp hv
    obtain ⟨hask, hgroup⟩ := (hselect hv).mp hdrilled
    obtain ⟨hown, hothers⟩ := (takes_group_iff hoslen).mp hgroup
    exact ⟨hfits, hshort, hask, hown, hothers⟩
  · rintro ⟨hfits, hshort, hask, hown, hothers⟩
    have hv := hvalid.mpr ⟨hfits, hshort⟩
    exact ⟨hv, (hselect hv).mpr ⟨hask, (takes_group_iff hoslen).mpr ⟨hown, hothers⟩⟩⟩

end drill

/-! ### An empty attribute -/

/-- A number of tenths as `CAST` prints it, 15 as 1.5 and 20 as 2.0. -/
def tenthsText (f : ℤ) : String :=
  (if f < 0 then "-" else "") ++ toString (f.natAbs / 10) ++ "." ++ toString (f.natAbs % 10)

theorem tenthsText_ne (f : ℤ) : tenthsText f ≠ "" := by
  intro h
  have hlen := congrArg String.length h
  simp [tenthsText] at hlen

/-- SQLite with numbers of one decimal. -/
def tenths : Sqlite ℤ where
  castReal := tenthsText
  castReal_ne := tenthsText_ne
  printf15 f := if f % 10 = 0 then toString (f / 10) else tenthsText f
  printf15_ne f := by
    split
    · cases f / 10 <;> simp [toString, Int.repr]
    · exact tenthsText_ne f
  isNaN _ := false
  cmpReal := compare
  cmpInt n f := compare (10 * n) f

/-- A span with one attribute. -/
def spanWith (name : String) (value : Json ℤ) : Span ℤ where
  texts _ := some ""
  numbers _ := .int 0
  attributes := some fun path => if path = attrPath name then some value else none
  field _ := .null

/-- The table by the attribute `env`. -/
def envRows (spans : List (Span ℤ)) : Except AnalyzeError (List AnalyzeRow) :=
  analyze tenths (fun _ => none) none ⟨none, ["env"]⟩ (fun _ => true) (fun _ => true) spans

def envOperands : List (Operand (Bound (Arg ℤ))) := [.attr (attrPath "env")]

def envDrill (value : String) : Node := groupNode .and [groupCondition "env" value]

/-- The row of the live spans, next to one without the attribute and one where it is a number. -/
theorem drill_selects_group_live :
    ∃ drilled, selectWith (fun _ => none) tenths none (some (envDrill "live")) = .ok drilled ∧
      ∀ s ∈ [spanWith "env" (.str "live"), spanWith "user" .null, spanWith "env" (.real 15)],
        drilled s = true ↔ true = true ∧ labels tenths envOperands s = ["live"] := by
  have hrun : envRows [spanWith "env" (.str "live"), spanWith "user" .null, spanWith "env" (.real 15)] =
      .ok [⟨["live"], false, some (envDrill "live")⟩, ⟨[""], false, some (envDrill "")⟩,
        ⟨["1.5"], false, some (envDrill "1.5")⟩] := rfl
  have hos : operands none ["env"] = .ok envOperands := rfl
  have hexpr : ∀ b ∈ (none : Option Node), validate b = .ok () := fun _ hb => nomatch hb
  refine ((drill_selects_group_iff hexpr hrun mem_cons_self rfl rfl hos).mpr ?_).2
  refine ⟨by decide, by decide, ?_, ?_, ?_⟩
  · rintro p hp hint
    rw [mem_singleton.mp hp] at hint
    exact absurd hint nofun
  · rintro s _ _ p hp hlost
    rw [mem_singleton.mp hp, Lost, if_neg (by decide)] at hlost
    obtain ⟨f, hf, -⟩ := hlost
    cases hf
  · intro s _ hother
    refine ⟨_, mem_singleton_self _, .inr ⟨fun heq => hother ?_, ?_⟩⟩
    · exact congrArg (fun v => [v]) heq
    · rintro ⟨-, f, hf, -⟩
      cases hf

/-- A span whose attribute is the empty text is in the group of the empty label, whose filter asks for
    spans without the attribute. -/
theorem empty_attribute_not_drilled :
    ∃ rows row e drilled, envRows [spanWith "env" (.str "")] = .ok rows ∧ row ∈ rows ∧
      row.drill = some e ∧
      selectWith (fun _ => none) tenths none (some e) = .ok drilled ∧
      labels tenths envOperands (spanWith "env" (.str "")) = row.group ∧
      drilled (spanWith "env" (.str "")) = false :=
  ⟨[⟨[""], false, some (envDrill "")⟩], _, envDrill "", _, rfl, mem_singleton_self _, rfl, rfl, rfl,
    rfl⟩

end Spanbarn.Analyze
