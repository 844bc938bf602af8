import Mathlib.Algebra.BigOperators.Group.List.Basic
import Mathlib.Data.List.Induction
import Mathlib.Data.List.Nodup
import Mathlib.Data.Nat.Basic

/-! A list in pieces.

    `chunks n` cuts a list into runs of `n`. `gather` walks a list and keeps one accumulator per key,
    the keys in the order they were first seen: what a loop over a map and an order slice computes.

        gather key f [x₁, y₁, x₂]  =  [(x, f (f ∅ x₁) x₂), (y, f ∅ y₁)]          -/

namespace Spanbarn.Schemes
open List

variable {α κ A M : Type*}

/-! ### Runs of a given length -/

def chunksFrom (n : ℕ) : ℕ → List α → List (List α)
  | 0, _ => []
  | _, [] => []
  | fuel + 1, x :: xs => (x :: xs).take n :: chunksFrom n fuel ((x :: xs).drop n)

/-- Runs of `n`, the last one shorter. -/
def chunks (n : ℕ) (l : List α) : List (List α) := chunksFrom n l.length l

variable {n : ℕ}

theorem flatten_chunksFrom (hn : 0 < n) :
    ∀ (fuel : ℕ) (l : List α), l.length ≤ fuel → (chunksFrom n fuel l).flatten = l
  | 0, l, h => by
    rw [length_eq_zero_iff.mp (Nat.le_zero.mp h)]
    rfl
  | _ + 1, [], _ => rfl
  | fuel + 1, x :: xs, h => by
    have hlen : ((x :: xs).drop n).length ≤ fuel := by
      rw [length_drop, length_cons] at *
      omega
    rw [chunksFrom, flatten_cons, flatten_chunksFrom hn fuel _ hlen, take_append_drop]

theorem flatten_chunks (hn : 0 < n) (l : List α) : (chunks n l).flatten = l :=
  flatten_chunksFrom hn l.length l le_rfl

theorem nil_not_mem_chunksFrom (hn : 0 < n) : ∀ (fuel : ℕ) (l : List α), [] ∉ chunksFrom n fuel l
  | 0, _ => not_mem_nil
  | _ + 1, [] => not_mem_nil
  | fuel + 1, x :: xs => by
    rw [chunksFrom, mem_cons, not_or]
    refine ⟨fun h => ?_, nil_not_mem_chunksFrom hn fuel _⟩
    rw [eq_comm, take_eq_nil_iff] at h
    rcases h with rfl | h
    · exact absurd hn (lt_irrefl 0)
    · exact absurd h (cons_ne_nil x xs)

/-- No run is empty. -/
theorem nil_not_mem_chunks (hn : 0 < n) (l : List α) : [] ∉ chunks n l :=
  nil_not_mem_chunksFrom hn l.length l

/-! ### One part per key -/

/-- A list is its parts by key, for keys that cover it. -/
theorem perm_parts [DecidableEq κ] {key : α → κ} : ∀ {keys : List κ} {l : List α}, keys.Nodup →
    (∀ x ∈ l, key x ∈ keys) → (keys.flatMap fun k => l.filter fun x => key x = k).Perm l := by
  intro keys
  induction keys with
  | nil =>
    intro l _ hcover
    rw [eq_nil_iff_forall_not_mem.mpr fun x hx => not_mem_nil (hcover x hx)]
    exact .nil
  | cons k keys ih =>
    intro l hnodup hcover
    obtain ⟨hk, hnodup⟩ := nodup_cons.mp hnodup
    have hrest : (keys.flatMap fun k' => l.filter fun x => key x = k') =
        keys.flatMap fun k' => (l.filter fun x => !decide (key x = k)).filter fun x => key x = k' := by
      refine flatMap_congr fun k' hk' => ?_
      rw [filter_filter]
      refine filter_congr fun x _ => ?_
      by_cases hx : key x = k'
      · have hne : key x ≠ k := fun h => hk (h.symm.trans hx ▸ hk')
        simp [hx, hx ▸ hne]
      · simp [hx]
    rw [flatMap_cons, hrest]
    refine .trans (.append_left _ (ih hnodup fun x hx => ?_)) (filter_append_perm _ l)
    obtain ⟨hxl, hxk⟩ := mem_filter.mp hx
    refine (mem_cons.mp (hcover x hxl)).resolve_left fun h => ?_
    simp [h] at hxk

/-! ### One accumulator per key -/

section gather
variable [DecidableEq κ]

/-- Change the accumulator of a key; a new key goes last. -/
def alter (k : κ) (f : Option A → A) : List (κ × A) → List (κ × A)
  | [] => [(k, f none)]
  | e :: rest => if e.1 = k then (e.1, f (some e.2)) :: rest else e :: alter k f rest

/-- Fold a list into one accumulator per key. -/
def gather (key : α → κ) (f : Option A → α → A) (l : List α) : List (κ × A) :=
  l.foldl (fun g x => alter (key x) (fun o => f o x) g) []

theorem keys_alter (k : κ) (f : Option A → A) : ∀ g : List (κ × A),
    (alter k f g).map Prod.fst =
      if k ∈ g.map Prod.fst then g.map Prod.fst else g.map Prod.fst ++ [k]
  | [] => rfl
  | e :: rest => by
    by_cases he : e.1 = k
    · simp [alter, he]
    · have hne : k ≠ e.1 := Ne.symm he
      by_cases hk : k ∈ rest.map Prod.fst
      · simp only [alter, if_neg he, map_cons, keys_alter k f rest, if_pos hk,
          mem_cons, hne, false_or]
      · simp only [alter, if_neg he, map_cons, keys_alter k f rest, if_neg hk,
          mem_cons, hne, false_or, cons_append]

theorem mem_alter {k : κ} {f : Option A → A} {e : κ × A} : ∀ {g : List (κ × A)}, e ∈ alter k f g →
    e ∈ g ∨ e = (k, f none) ∨ ∃ a, (k, a) ∈ g ∧ e = (k, f (some a))
  | [], h => .inr (.inl (mem_singleton.mp h))
  | d :: rest, h => by
    by_cases hd : d.1 = k
    · rw [alter, if_pos hd] at h
      rcases mem_cons.mp h with rfl | h
      · exact .inr (.inr ⟨d.2, by simp [← hd], by rw [hd]⟩)
      · exact .inl (mem_cons_of_mem _ h)
    · rw [alter, if_neg hd] at h
      rcases mem_cons.mp h with rfl | h
      · exact .inl mem_cons_self
      · rcases mem_alter h with h | h | ⟨a, ha, h⟩
        · exact .inl (mem_cons_of_mem _ h)
        · exact .inr (.inl h)
        · exact .inr (.inr ⟨a, mem_cons_of_mem _ ha, h⟩)

theorem sum_alter [AddCommMonoid M] {μ : A → M} {k : κ} {f : Option A → A} {w : M}
    (h : ∀ o, μ (f o) = o.elim 0 μ + w) : ∀ g : List (κ × A),
    ((alter k f g).map fun e => μ e.2).sum = (g.map fun e => μ e.2).sum + w
  | [] => by simp [alter, h]
  | e :: rest => by
    by_cases he : e.1 = k
    · simp only [alter, if_pos he, map_cons, sum_cons, h, Option.elim]
      exact add_right_comm _ _ _
    · simp [alter, if_neg he, sum_alter h rest, add_assoc]

/-- The accumulator of a key. -/
def accAt (k : κ) : List (κ × A) → Option A
  | [] => none
  | e :: rest => if e.1 = k then some e.2 else accAt k rest

theorem accAt_alter (k k' : κ) (f : Option A → A) : ∀ g : List (κ × A),
    accAt k (alter k' f g) = if k' = k then some (f (accAt k g)) else accAt k g
  | [] => rfl
  | e :: rest => by
    by_cases he : e.1 = k'
    · by_cases hk : k' = k
      · simp [alter, he, hk, accAt]
      · simp [alter, he, hk, accAt]
    · by_cases hk : k' = k
      · subst hk
        simp [alter, if_neg he, accAt, accAt_alter k' k' f rest]
      · simp [alter, if_neg he, accAt, accAt_alter k k' f rest, if_neg hk]

theorem mem_iff_accAt {k : κ} {a : A} : ∀ {g : List (κ × A)}, (g.map Prod.fst).Nodup →
    ((k, a) ∈ g ↔ accAt k g = some a)
  | [], _ => by simp [accAt]
  | e :: rest, h => by
    obtain ⟨hnot, hrest⟩ := nodup_cons.mp h
    have ih := mem_iff_accAt (k := k) (a := a) hrest
    by_cases he : e.1 = k
    · subst he
      have hk : (e.1, a) ∉ rest := fun hm => hnot (mem_map.mpr ⟨_, hm, rfl⟩)
      simp only [mem_cons, hk, or_false, accAt, if_true, Option.some.injEq, Prod.ext_iff,
        true_and]
      exact eq_comm
    · have hne : (k, a) ≠ e := fun h => he (congrArg Prod.fst h).symm
      simp [hne, accAt, if_neg he, ih]

variable {key : α → κ} {f : Option A → α → A}

theorem gather_snoc (l : List α) (x : α) :
    gather key f (l ++ [x]) = alter (key x) (fun o => f o x) (gather key f l) := by
  rw [gather, gather, foldl_append, foldl_cons, foldl_nil]

theorem nodup_keys_gather (l : List α) : ((gather key f l).map Prod.fst).Nodup := by
  induction l using List.reverseRecOn with
  | nil => exact nodup_nil
  | append_singleton l x ih =>
    rw [gather_snoc, keys_alter]
    split
    · exact ih
    · rename_i hk
      exact ih.append (nodup_singleton _) (disjoint_singleton.mpr hk)

/-- The accumulator of a key is the fold over the entries of that key. -/
theorem accAt_gather (k : κ) (l : List α) : accAt k (gather key f l) =
    (l.filter fun x => decide (key x = k)).foldl (fun o x => some (f o x)) none := by
  induction l using List.reverseRecOn with
  | nil => rfl
  | append_singleton l x ih =>
    rw [gather_snoc, accAt_alter, ih, filter_append, foldl_append]
    by_cases hk : key x = k
    · simp [hk]
    · simp [hk]

theorem foldl_snoc : ∀ (l : List α) (o : Option (List α)),
    l.foldl (fun o m => some (o.getD [] ++ [m])) o = if l = [] then o else some (o.getD [] ++ l)
  | [], o => (if_pos rfl).symm
  | a :: l, o => by
    rw [foldl_cons, foldl_snoc l, if_neg (cons_ne_nil a l)]
    split
    · rename_i hl
      rw [hl]
    · rw [Option.getD_some, append_assoc]
      rfl

variable {l : List α}

/-- Grouping puts the entries of each key together, in their order. -/
theorem mem_gather_snoc {src : List α} {k : κ} :
    (k, l) ∈ gather key (fun o m => o.getD [] ++ [m]) src ↔
      l = src.filter (fun r => decide (key r = k)) ∧ l ≠ [] := by
  rw [mem_iff_accAt (nodup_keys_gather src), accAt_gather, foldl_snoc]
  split
  · rename_i hnil
    constructor
    · rintro ⟨⟩
    · rintro ⟨rfl, hne⟩
      exact absurd hnil hne
  · rename_i hne
    rw [Option.getD_none, nil_append, Option.some.injEq]
    constructor
    · rintro rfl
      exact ⟨rfl, hne⟩
    · exact fun h => h.1.symm

/-- What the first entry of a key establishes and every further one keeps, holds at the end. -/
theorem gather_induct {P : κ → A → Prop} (hnew : ∀ x ∈ l, P (key x) (f none x))
    (hadd : ∀ x ∈ l, ∀ a, P (key x) a → P (key x) (f (some a) x)) :
    ∀ e ∈ gather key f l, P e.1 e.2 := by
  induction l using List.reverseRecOn with
  | nil =>
    intro e he
    cases he
  | append_singleton l x ih =>
    intro e he
    have ih' := ih (fun y hy => hnew y (by simp [hy])) fun y hy => hadd y (by simp [hy])
    rw [gather_snoc] at he
    rcases mem_alter he with he | rfl | ⟨a, ha, rfl⟩
    · exact ih' e he
    · exact hnew x (by simp)
    · exact hadd x (by simp) a (ih' _ ha)

/-- A quantity every entry adds to its accumulator adds up to that of the whole list. -/
theorem sum_gather [AddCommMonoid M] {μ : A → M} {w : α → M}
    (h : ∀ o x, μ (f o x) = o.elim 0 μ + w x) (l : List α) :
    ((gather key f l).map fun e => μ e.2).sum = (l.map w).sum := by
  induction l using List.reverseRecOn with
  | nil => rfl
  | append_singleton l x ih =>
    rw [gather_snoc, sum_alter (fun o => h o x), ih]
    simp

theorem key_of_gather {k : κ} (h : k ∈ (gather key f l).map Prod.fst) : ∃ x ∈ l, key x = k := by
  obtain ⟨e, he, rfl⟩ := mem_map.mp h
  exact gather_induct (P := fun k _ => ∃ x ∈ l, key x = k) (fun x hx => ⟨x, hx, rfl⟩)
    (fun x hx _ _ => ⟨x, hx, rfl⟩) e he

theorem alter_append {k : κ} {F : Option A → A} {g' : List (κ × A)} :
    ∀ {g : List (κ × A)}, k ∉ g.map Prod.fst → alter k F (g ++ g') = g ++ alter k F g'
  | [], _ => rfl
  | e :: g, h => by
    rw [map_cons, mem_cons, not_or] at h
    rw [cons_append, alter, if_neg (Ne.symm h.1), alter_append h.2, cons_append]

/-- A key that comes after all others has its accumulator last. -/
theorem gather_last {b : List α} {k : κ} (hl : ∀ x ∈ l, key x ≠ k) (hb : ∀ x ∈ b, key x = k)
    (hne : b ≠ []) : ∃ a, gather key f (l ++ b) = gather key f l ++ [(k, a)] := by
  have hfresh : k ∉ (gather key f l).map Prod.fst := by
    intro h
    obtain ⟨x, hx, hk⟩ := key_of_gather h
    exact hl x hx hk
  induction b using List.reverseRecOn with
  | nil => exact absurd rfl hne
  | append_singleton b x ih =>
    have hx : key x = k := hb x (by simp)
    rw [← append_assoc, gather_snoc, hx]
    rcases eq_nil_or_concat b with rfl | ⟨_, _, hcons⟩
    · refine ⟨f none x, ?_⟩
      conv_lhs => rw [append_nil, ← append_nil (gather key f l), alter_append hfresh]
      rfl
    · obtain ⟨a, ha⟩ := ih (fun y hy => hb y (by simp [hy])) (by simp [hcons])
      refine ⟨f (some a) x, ?_⟩
      rw [ha, alter_append hfresh, alter, if_pos rfl]

/-- A key that comes before all others has its accumulator first. -/
theorem gather_first {b : List α} {k : κ} (hb : ∀ x ∈ b, key x = k) (hl : ∀ x ∈ l, key x ≠ k)
    (hne : b ≠ []) : ∃ a, gather key f (b ++ l) = (k, a) :: gather key f l := by
  induction l using List.reverseRecOn with
  | nil =>
    have hlast : ∃ a, gather key f ([] ++ b) = gather key f [] ++ [(k, a)] :=
      gather_last (by simp) hb hne
    obtain ⟨a, ha⟩ := hlast
    exact ⟨a, (congrArg _ (append_nil b)).trans ha⟩
  | append_singleton l x ih =>
    obtain ⟨a, ha⟩ := ih fun y hy => hl y (by simp [hy])
    refine ⟨a, ?_⟩
    rw [← append_assoc, gather_snoc, ha, alter, if_neg (Ne.symm (hl x (by simp))), gather_snoc]

end gather

/-! ### Folds in any order -/

/-- A fold whose steps commute, as far as the view of the state goes, is the same in every order. -/
theorem foldl_perm {β γ : Type*} {f : β → α → β} {view : β → γ} {I : β → Prop} {S : α → Prop}
    (hkeep : ∀ z x, I z → S x → I (f z x))
    (hview : ∀ z z' x, view z = view z' → view (f z x) = view (f z' x))
    (hcomm : ∀ z x y, I z → S x → S y → view (f (f z x) y) = view (f (f z y) x))
    {l l' : List α} (h : l.Perm l') :
    ∀ z, I z → (∀ x ∈ l, S x) → view (l.foldl f z) = view (l'.foldl f z) := by
  have hcongr : ∀ (l : List α) (z z' : β), view z = view z' →
      view (l.foldl f z) = view (l.foldl f z') := by
    intro l
    induction l with
    | nil => exact fun _ _ h => h
    | cons x l ih => exact fun z z' h => ih _ _ (hview z z' x h)
  induction h with
  | nil => exact fun _ _ _ => rfl
  | cons x _ ih =>
    intro z hz hS
    exact ih (f z x) (hkeep z x hz (hS x (by simp))) fun y hy => hS y (by simp [hy])
  | swap x y l =>
    intro z hz hS
    exact hcongr l _ _ (hcomm z y x hz (hS y (by simp)) (hS x (by simp)))
  | trans h _ ih ih' =>
    intro z hz hS
    exact (ih z hz hS).trans (ih' z hz fun x hx => hS x (h.mem_iff.mpr hx))

end Spanbarn.Schemes
