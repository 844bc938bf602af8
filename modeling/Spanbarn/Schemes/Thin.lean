import Mathlib.Data.List.Basic
import Mathlib.Data.List.Induction
import Mathlib.Data.Nat.Basic
import Mathlib.Order.Lattice

/-! Lists with repeats left out.

    Of a list of items, each with a face, some are kept. What is left out lies between two kept items of
    its own face, and near the first of them:

        items    10  10  10  10  11  11  11  12
        kept     10          10  11      11  12

    So the first item is kept, every item whose face is new, and the one before it. Anything that does
    not see the third of three equal faces in a row sees no difference. -/

namespace Spanbarn.Schemes
open List

variable {α β γ τ : Type*} {face : α → β} {near : α → α → Prop} {a k : List α}

/-- `k` is what is kept of `a`. The last item of `a` is kept. -/
inductive Thinned (face : α → β) (near : α → α → Prop) : List α → List α → Prop
  | nil : Thinned face near [] []
  | keep {a k : List α} {p : α} : Thinned face near a k → Thinned face near (a ++ [p]) (k ++ [p])
  | skip {a k d : List α} {l p : α} : Thinned face near a k → k.getLast? = some l →
      (∀ q ∈ d, face q = face l ∧ near l q) → face p = face l →
      Thinned face near (a ++ d ++ [p]) (k ++ [p])

theorem Thinned.getLast (h : Thinned face near a k) : a.getLast? = k.getLast? := by
  cases h with
  | nil => rfl
  | keep h | skip h hl hd hp => rw [List.getLast?_concat, List.getLast?_concat]

theorem Thinned.sublist (h : Thinned face near a k) : k.Sublist a := by
  induction h with
  | nil => exact List.Sublist.slnil
  | keep h ih => exact ih.append (List.Sublist.refl _)
  | skip h hl hd hp ih => exact (ih.trans (sublist_append_left _ _)).append (List.Sublist.refl _)

/-! ### Which items are kept -/

/-- The items at the places `m` marks. -/
def pick (m : ℕ → Bool) (l : List α) : List α :=
  (l.zipIdx.filter fun e => m e.2).map Prod.fst

theorem pick_append (m : ℕ → Bool) (l r : List α) :
    pick m (l ++ r) = pick m l ++ pick (fun i => m (l.length + i)) r := by
  have hshift : ∀ (n : ℕ) (r : List α), (r.zipIdx n).filter (fun e => m e.2) =
      ((r.zipIdx).filter (fun e => m (n + e.2))).map fun e => (e.1, n + e.2) := by
    intro n r
    have hzip : r.zipIdx n = r.zipIdx.map fun e => (e.1, n + e.2) := zipIdx_eq_map_add
    rw [hzip, filter_map]
    rfl
  rw [pick, zipIdx_append, filter_append, map_append, Nat.zero_add,
    hshift l.length r, map_map]
  rfl

variable {m : ℕ → Bool} {l : List α}

theorem pick_congr {m' : ℕ → Bool} (h : ∀ i < l.length, m i = m' i) :
    pick m l = pick m' l := by
  refine congrArg (List.map Prod.fst) (filter_congr fun e he => ?_)
  obtain ⟨hlt, -⟩ := List.getElem?_eq_some_iff.mp (mem_zipIdx_iff_getElem?.mp he)
  exact h e.2 hlt

theorem pick_false (h : ∀ i < l.length, m i = false) :
    pick m l = [] := by
  rw [pick, map_eq_nil_iff, filter_eq_nil_iff]
  intro e he
  obtain ⟨hlt, -⟩ := List.getElem?_eq_some_iff.mp (mem_zipIdx_iff_getElem?.mp he)
  rw [h e.2 hlt]
  exact Bool.false_ne_true

/-- The places marked are those of the first item, of every change of face and of the item before it;
    an item that is not marked is near a marked one before it of its face. -/
structure Marks (face : α → β) (near : α → α → Prop) (a : List α) (m : ℕ → Bool) : Prop where
  first : a ≠ [] → m 0 = true
  change : ∀ i x y, a[i]? = some x → a[i + 1]? = some y → face x ≠ face y →
    m i = true ∧ m (i + 1) = true
  left : ∀ i x, a[i]? = some x → m i = false →
    ∃ j < i, ∃ w, a[j]? = some w ∧ m j = true ∧ face w = face x ∧ near w x

/-- Items of the last face that are left out. -/
theorem Marks.leave {d : List α} {l : α} (h : Marks face near a m) (hl : a.getLast? = some l)
    (hm : m (a.length - 1) = true) (hd : ∀ q ∈ d, face q = face l ∧ near l q) :
    Marks face near (a ++ d) fun i => m i && decide (i < a.length) := by
  have hpos : 0 < a.length := by
    cases a with
    | nil => cases hl
    | cons x a => exact Nat.succ_pos _
  have hlast : a[a.length - 1]? = some l := by rw [← List.getLast?_eq_getElem?, hl]
  have hface : ∀ i x, (a ++ d)[i]? = some x → a.length - 1 ≤ i → face x = face l := by
    intro i x hx hi
    rcases Nat.lt_or_ge i a.length with hlt | hge
    · obtain rfl : i = a.length - 1 := by omega
      rw [List.getElem?_append_left hlt, hlast] at hx
      rw [Option.some.inj hx]
    · rw [List.getElem?_append_right hge] at hx
      exact (hd x (mem_of_getElem? hx)).1
  refine ⟨fun _ => ?_, fun i x y hx hy hne => ?_, fun i x hx hi => ?_⟩
  · rw [h.first (ne_nil_of_length_pos hpos), decide_eq_true hpos, Bool.and_self]
  · have hi : i + 1 < a.length := by
      by_contra hge
      exact hne ((hface i x hx (by omega)).trans (hface (i + 1) y hy (by omega)).symm)
    rw [List.getElem?_append_left (by omega)] at hx
    rw [List.getElem?_append_left hi] at hy
    obtain ⟨h₁, h₂⟩ := h.change i x y hx hy hne
    rw [h₁, h₂, decide_eq_true hi, decide_eq_true (show i < a.length by omega)]
    exact ⟨rfl, rfl⟩
  · rcases Nat.lt_or_ge i a.length with hlt | hge
    · rw [List.getElem?_append_left hlt] at hx
      rw [decide_eq_true hlt, Bool.and_true] at hi
      obtain ⟨j, hj, w, hw, hmj, hrest⟩ := h.left i x hx hi
      refine ⟨j, hj, w, ?_, ?_, hrest⟩
      · rwa [List.getElem?_append_left (by omega)]
      · rw [hmj, decide_eq_true (show j < a.length by omega), Bool.and_self]
    · have hxd : x ∈ d := by
        rw [List.getElem?_append_right hge] at hx
        exact mem_of_getElem? hx
      refine ⟨a.length - 1, by omega, l, ?_, ?_, (hd x hxd).1.symm, (hd x hxd).2⟩
      · rwa [List.getElem?_append_left (by omega)]
      · rw [hm, decide_eq_true (show a.length - 1 < a.length by omega), Bool.and_self]

theorem pick_leave {d : List α} :
    pick (fun i => m i && decide (i < a.length)) (a ++ d) = pick m a := by
  rw [pick_append, pick_false (l := d) fun i _ => ?_, append_nil]
  · exact pick_congr fun i hi => by rw [decide_eq_true hi, Bool.and_true]
  · rw [decide_eq_false (show ¬(a.length + i < a.length) by omega), Bool.and_false]

/-- One more item that is kept. -/
theorem Marks.add {p : α} (h : Marks face near a m)
    (hm : ∀ x, a.getLast? = some x → face x ≠ face p → m (a.length - 1) = true) :
    Marks face near (a ++ [p]) fun i => m i || decide (a.length ≤ i) := by
  refine ⟨fun _ => ?_, fun i x y hx hy hne => ?_, fun i x hx hi => ?_⟩
  · cases a with
    | nil => exact Bool.or_true _
    | cons x a => rw [h.first (cons_ne_nil _ _), Bool.true_or]
  · rcases Nat.lt_or_ge (i + 1) a.length with hlt | hge
    · rw [List.getElem?_append_left (by omega)] at hx
      rw [List.getElem?_append_left hlt] at hy
      obtain ⟨h₁, h₂⟩ := h.change i x y hx hy hne
      rw [h₁, h₂]
      exact ⟨rfl, rfl⟩
    · have hi : i + 1 < (a ++ [p]).length := (List.getElem?_eq_some_iff.mp hy).1
      rw [length_append, length_singleton] at hi
      have hlen : a.length = i + 1 := by omega
      rw [List.getElem?_append_right hge, hlen, Nat.sub_self] at hy
      obtain rfl : p = y := Option.some.inj hy
      rw [List.getElem?_append_left (by omega)] at hx
      have hlast : a.getLast? = some x := by
        rw [List.getLast?_eq_getElem?, hlen, Nat.add_sub_cancel, hx]
      have hmi := hm x hlast hne
      rw [hlen, Nat.add_sub_cancel] at hmi
      rw [hmi, decide_eq_true hlen.le]
      exact ⟨rfl, Bool.or_true _⟩
  · rw [Bool.or_eq_false_iff, decide_eq_false_iff_not, not_le] at hi
    rw [List.getElem?_append_left hi.2] at hx
    obtain ⟨j, hj, w, hw, hmj, hrest⟩ := h.left i x hx hi.1
    refine ⟨j, hj, w, ?_, ?_, hrest⟩
    · rwa [List.getElem?_append_left (by omega)]
    · rw [hmj, Bool.true_or]

theorem pick_add {p : α} :
    pick (fun i => m i || decide (a.length ≤ i)) (a ++ [p]) = pick m a ++ [p] := by
  have hbefore : pick (fun i => m i || decide (a.length ≤ i)) a = pick m a :=
    pick_congr fun i hi => by rw [decide_eq_false (not_le.mpr hi), Bool.or_false]
  rw [pick_append, hbefore]
  simp [pick]

/-- What is kept is marked, and so is the last item. -/
theorem Thinned.marks (h : Thinned face near a k) : ∃ m, pick m a = k ∧ Marks face near a m ∧
    (a ≠ [] → m (a.length - 1) = true) := by
  induction h with
  | nil =>
    refine ⟨fun _ => true, rfl, ⟨fun h => absurd rfl h, fun i x y hx => ?_, fun i x hx => ?_⟩,
      fun h => absurd rfl h⟩
    · cases hx
    · cases hx
  | @keep a k p h ih =>
    obtain ⟨m, rfl, hmarks, hlast⟩ := ih
    refine ⟨_, pick_add, hmarks.add fun x hx _ => hlast fun hnil => ?_, fun _ => ?_⟩
    · rw [hnil] at hx
      cases hx
    · rw [length_append, length_singleton, Nat.add_sub_cancel, decide_eq_true le_rfl,
        Bool.or_true]
  | @skip a k d l p h hl hd hp ih =>
    obtain ⟨m, rfl, hmarks, hlast⟩ := ih
    have hla : a.getLast? = some l := h.getLast.trans hl
    have hne : a ≠ [] := fun hnil => by
      rw [hnil] at hla
      cases hla
    have hleave := hmarks.leave hla (hlast hne) hd
    refine ⟨_, pick_add.trans (congrArg (· ++ [p]) pick_leave), hleave.add fun x hx hxp => ?_,
      fun _ => ?_⟩
    · -- everything after l has its face, and so has p
      refine absurd ?_ hxp
      rw [hp]
      rw [List.getLast?_append] at hx
      cases hdl : d.getLast? with
      | none =>
        rw [hdl, Option.none_or, hla] at hx
        rw [Option.some.inj hx]
      | some q =>
        rw [hdl, Option.some_or] at hx
        exact Option.some.inj hx ▸ (hd q (mem_of_getLast? hdl)).1
    · rw [length_append, length_singleton, Nat.add_sub_cancel,
        decide_eq_true le_rfl, Bool.or_true]

/-! ### What does not see the third of three -/

/-- Leaving out what lies between two items of its face changes nothing that a third equal face in a
    row does not change. -/
theorem Thinned.congr {f : List α → γ}
    (hthird : ∀ l a b c m, face b = face a → face c = face a →
      f (l ++ a :: b :: c :: m) = f (l ++ a :: c :: m))
    (h : Thinned face near a k) : ∀ m, f (a ++ m) = f (k ++ m) := by
  have hmiss : ∀ (l : List α) (x p : α) (d m : List α), (∀ q ∈ d, face q = face x) →
      face p = face x → f (l ++ x :: (d ++ p :: m)) = f (l ++ x :: p :: m) := by
    intro l x p d
    induction d with
    | nil => exact fun m _ _ => rfl
    | cons q d ih =>
      intro m hd hp
      obtain ⟨hq, hd⟩ := forall_mem_cons.mp hd
      cases d with
      | nil => exact hthird l x q p m hq hp
      | cons r d =>
        rw [cons_append, cons_append,
          hthird l x q r (d ++ p :: m) hq (hd r mem_cons_self), ← ih m hd hp, cons_append]
  induction h with
  | nil => exact fun m => rfl
  | @keep a k p h ih =>
    intro m
    rw [append_assoc, append_assoc, singleton_append]
    exact ih (p :: m)
  | @skip a k d l p h hl hd hp ih =>
    intro m
    obtain ⟨init, rfl⟩ := List.getLast?_eq_some_iff.mp (h.getLast.trans hl)
    have hrest := ih (p :: m)
    rw [append_assoc, singleton_append] at hrest
    rw [append_assoc, append_assoc, append_assoc, append_assoc,
      singleton_append, singleton_append,
      hmiss init l p d m (fun q hq => (hd q hq).1) hp, hrest]

/-- Repeats at the end change nothing that a repeat at the end does not change. -/
theorem trailing {f : List α → γ} (hend : ∀ l a b, face b = face a → f (l ++ [a, b]) = f (l ++ [a]))
    {x : α} {e : List α} (he : ∀ q ∈ e, face q = face x) : f (l ++ x :: e) = f (l ++ [x]) := by
  induction e using List.reverseRecOn with
  | nil => rfl
  | append_singleton e q ih =>
    obtain ⟨he, hq⟩ := forall_mem_append.mp he
    have hq := hq q mem_cons_self
    rw [← ih he]
    -- the item before q has the face of x
    obtain ⟨init, y, hy, hface⟩ : ∃ init y, x :: e = init ++ [y] ∧ face y = face x := by
      refine ⟨(x :: e).dropLast, (x :: e).getLast (cons_ne_nil _ _),
        (dropLast_append_getLast _).symm, ?_⟩
      rcases mem_cons.mp (getLast_mem (cons_ne_nil x e)) with hx | hx
      · rw [hx]
      · exact he _ hx
    rw [← cons_append, hy, append_assoc, ← append_assoc, singleton_append,
      hend _ _ _ (hq.trans hface.symm), append_assoc]

/-! ### Up to a time -/

/-- The kept items up to a time are what is kept of the items up to the last of them, but for repeats
    of it. -/
theorem Thinned.window [LinearOrder τ] {time : α → τ} (h : Thinned face near a k) (t : τ) :
    ∀ {d : List α}, (∀ l, k.getLast? = some l → ∀ q ∈ d, face q = face l) →
      (a ++ d).Pairwise (fun x y => time x ≤ time y) →
      ∃ a' e, Thinned face near a' (k.filter fun p => time p ≤ t) ∧
        ∀ l, (k.filter fun p => time p ≤ t).getLast? = some l →
          (a ++ d).filter (fun p => time p ≤ time l) = a' ++ e ∧ ∀ q ∈ e, face q = face l := by
  -- the last item p of a is in time, or it and all after it are late
  have hcase : ∀ {a k d : List α} {p : α}, Thinned face near (a ++ [p]) (k ++ [p]) →
      (∀ q ∈ d, face q = face p) → (a ++ [p] ++ d).Pairwise (fun x y => time x ≤ time y) →
      (time p ≤ t ∧ ∃ a' e, Thinned face near a' ((k ++ [p]).filter fun p => time p ≤ t) ∧
        ∀ l, ((k ++ [p]).filter fun p => time p ≤ t).getLast? = some l →
          (a ++ [p] ++ d).filter (fun p => time p ≤ time l) = a' ++ e ∧ ∀ q ∈ e, face q = face l) ∨
      (t < time p ∧ (k ++ [p]).filter (fun p => time p ≤ t) = k.filter (fun p => time p ≤ t) ∧
        ∀ l, time l ≤ t → (a ++ [p] ++ d).filter (fun p => time p ≤ time l) =
          a.filter fun p => time p ≤ time l) := by
    intro a k d p h hd hsorted
    obtain ⟨hfront, -, hback⟩ := pairwise_append.mp hsorted
    obtain ⟨-, -, hap⟩ := pairwise_append.mp hfront
    have hbefore : ∀ q ∈ a ++ [p], time q ≤ time p := by
      refine forall_mem_append.mpr ⟨fun q hq => hap q hq p mem_cons_self, ?_⟩
      exact forall_mem_singleton.mpr le_rfl
    rcases le_or_gt (time p) t with hp | hp
    · refine .inl ⟨hp, a ++ [p], d.filter (fun q => time q ≤ time p), ?_, fun l hl => ?_⟩
      · rwa [filter_eq_self.mpr fun q hq =>
          decide_eq_true ((hbefore q (h.sublist.mem hq)).trans hp)]
      · rw [filter_eq_self.mpr fun q hq =>
          decide_eq_true ((hbefore q (h.sublist.mem hq)).trans hp), List.getLast?_concat] at hl
        obtain rfl := Option.some.inj hl
        rw [filter_append, filter_eq_self.mpr fun q hq => decide_eq_true (hbefore q hq)]
        exact ⟨rfl, fun q hq => hd q (mem_of_mem_filter hq)⟩
    · refine .inr ⟨hp, ?_, fun l hl => ?_⟩
      · rw [filter_append, filter_cons_of_neg (by simpa using hp), filter_nil,
          append_nil]
      · have hlp : time l < time p := hl.trans_lt hp
        have hlate : d.filter (fun q => time q ≤ time l) = [] :=
          filter_eq_nil_iff.mpr fun q hq => by
            have hpq := hback p (mem_append_right _ mem_cons_self) q hq
            simpa using hlp.trans_le hpq
        rw [filter_append, hlate, append_nil, filter_append,
          filter_cons_of_neg (by simpa using hlp), filter_nil, append_nil]
  have hlt : ∀ {k : List α} {l : α}, (k.filter fun p => time p ≤ t).getLast? = some l → time l ≤ t :=
    fun hl => of_decide_eq_true (mem_filter.mp (mem_of_getLast? hl)).2
  induction h with
  | nil => exact fun _ _ => ⟨[], [], .nil, fun l hl => nomatch hl⟩
  | @keep a k p h ih =>
    intro d hd hsorted
    rcases hcase h.keep (hd p List.getLast?_concat) hsorted with ⟨-, hin⟩ | ⟨-, hk, hout⟩
    · exact hin
    · have hsub : (a ++ []).Pairwise fun x y => time x ≤ time y := by
        rw [append_nil]
        rw [append_assoc] at hsorted
        exact (pairwise_append.mp hsorted).1
      obtain ⟨a', e, ha', he⟩ := ih (d := []) (fun _ _ => forall_mem_nil _) hsub
      rw [hk]
      refine ⟨a', e, ha', fun l hl => ?_⟩
      rw [hout l (hlt hl), ← append_nil a]
      exact he l hl
  | @skip a k d₀ l₀ p h hl₀ hd₀ hp ih =>
    intro d hd hsorted
    rcases hcase (h.skip hl₀ hd₀ hp) (hd p List.getLast?_concat) hsorted with ⟨-, hin⟩ | ⟨-, hk, hout⟩
    · exact hin
    · have hsub : (a ++ d₀).Pairwise fun x y => time x ≤ time y := by
        rw [append_assoc] at hsorted
        exact (pairwise_append.mp hsorted).1
      obtain ⟨a', e, ha', he⟩ := ih (d := d₀) (fun l hl q hq => by
        obtain rfl := Option.some.inj (hl₀.symm.trans hl)
        exact (hd₀ q hq).1) hsub
      rw [hk]
      refine ⟨a', e, ha', fun l hl => ?_⟩
      rw [hout l (hlt hl)]
      exact he l hl

end Spanbarn.Schemes
