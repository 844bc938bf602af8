import Spanbarn.Sessions.Service

/-! Refresh tokens are used once.

    The provider takes a refresh token a second time for a replay and revokes the whole family. One
    flight per session keeps two requests from sending the same token; what keeps the next flight from
    sending it again is the write that follows the answer:

        row: t₁ ── present t₁ ── answered, t₂ issued ── row: t₂
                                                    └── the write fails: row: t₁, and t₁ is spent

    The invariant: every token belongs to one session, and a row with a spent token is the row of a
    flight between its answer and its write. -/

namespace Spanbarn.Sessions
open List Spanbarn.Schemes

/-- No token goes to the endpoint after its exchange was answered. -/
def UsedOnce (e : Endpoint) (log : List Exchange) : Prop :=
  ∀ newer t older, log = newer ++ .presented e t :: older → .answered t ∉ older

theorem usedOnce_cons {e : Endpoint} {x : Exchange} {log : List Exchange} (h : UsedOnce e log)
    (hx : ∀ t, x = .presented e t → .answered t ∉ log) : UsedOnce e (x :: log) := by
  intro newer t older heq
  cases newer with
  | nil =>
    obtain ⟨rfl, rfl⟩ := List.cons.inj heq
    exact hx t rfl
  | cons y newer =>
    rw [cons_append, List.cons.injEq] at heq
    exact h newer t older heq.2

/-- The provider has answered the exchange of the token. -/
def Server.Spent (s : Server) (t : String) : Prop := .answered t ∈ s.log

/-- The tokens a flight will send or write. -/
def Flight.live : Flight → List String
  | .renewing cur => [cur.refreshToken]
  | .presented cur => [cur.refreshToken]
  | .answered _ refreshed => [refreshed.refreshToken]
  | _ => []

def Flight.session : Flight → Option WebSession
  | .renewing cur => some cur
  | .presented cur => some cur
  | .answered cur _ => some cur
  | .dropping cur => some cur
  | .marking cur => some cur
  | _ => none

def Flight.isAnswered : Flight → Bool
  | .answered .. => true
  | _ => false

/-- The flight of the session is between the answer of the provider and its write. -/
def Server.exchanged (s : Server) (h : String) : Bool := (s.flights h).any Flight.isAnswered

/-- The write that follows a successful exchange does not fail while the row is there. -/
def Stored (s : Server) : Action → Prop
  | .flight h (.write ok _ _) => s.exchanged h = true → ok = true ∨ s.sessions.row h = none
  | _ => True

def Call.revokes (h : String) : Call → Bool
  | .revoking ws => ws.idHash == h
  | _ => false

/-- No exchange is answered between the read of a row by `Logout` and its revocation, and `Logout` reads
    no row that an answered exchange is about to replace. -/
def Apart (cfg : Config) (s : Server) : Action → Prop
  | .call i (.load ..) =>
    match s.calls[i]? with
    | some (.loading (.logout token)) => s.exchanged (cfg.hash token) = false
    | _ => True
  | .flight h (.succeed _) => ∀ c ∈ s.calls, c.revokes h = false
  | _ => True

/-! ### The invariant -/

structure Inv (s : Server) : Prop where
  unissued : s.holder "" = none
  keyed : ∀ h f cur, s.flights h = some f → f.session = some cur → cur.idHash = h
  rowHeld : ∀ h ws, s.sessions.row h = some ws → ws.refreshToken ≠ "" →
    s.holder ws.refreshToken = some h
  live : ∀ h f t, s.flights h = some f → t ∈ f.live → s.holder t = some h ∧ ¬s.Spent t
  spentHeld : ∀ t, s.Spent t → s.holder t ≠ none
  rowSpent : ∀ h ws, s.sessions.row h = some ws → s.Spent ws.refreshToken → s.exchanged h = true
  once : UsedOnce .token s.log

theorem inv_start : Inv {} where
  unissued := rfl
  keyed _ _ _ hf := nomatch hf
  rowHeld _ _ hrow := nomatch hrow
  live _ _ _ hf := nomatch hf
  spentHeld _ hspent := nomatch hspent
  rowSpent _ _ hrow := nomatch hrow
  once := by simp [UsedOnce]

/-- Rows may go; those that stay keep their refresh token. -/
def WebSessions.Within (t' t : WebSessions) : Prop :=
  ∀ h ws', t'.row h = some ws' → ∃ ws, t.row h = some ws ∧ ws'.refreshToken = ws.refreshToken

variable {ws : WebSession} {h : String}

namespace WebSessions
variable {t : WebSessions}

theorem within_refl : t.Within t := fun _ ws h => ⟨ws, h, rfl⟩

theorem within_deleteWhere (p : WebSession → Bool) : (t.deleteWhere p).Within t := by
  intro h ws hws
  exact ⟨ws, (Option.filter_eq_some_iff.mp hws).1, rfl⟩

theorem within_mark (idHash : String) (since : ℤ) :
    (t.markWebSessionRefreshFailing idHash since).Within t := by
  intro h ws hws
  simp only [markWebSessionRefreshFailing, modify] at hws
  split at hws
  · obtain ⟨ws', hws', rfl⟩ := Option.map_eq_some_iff.mp hws
    exact ⟨ws', hws', rfl⟩
  · exact ⟨ws, hws, rfl⟩

theorem within_drop (idHash : String) (ok : Bool) : (dropSession t idHash ok).Within t := by
  unfold dropSession
  split
  · exact within_deleteWhere _
  · exact within_refl

/-- A row of the table after an insert. -/
theorem row_create {ws' : WebSession} (hrow : ((t.createWebSession ws).getD t).row h = some ws') :
    t.row h = some ws' ∨ h = ws.idHash ∧ ws' = ws := by
  unfold createWebSession at hrow
  split at hrow
  · exact .inl hrow
  · simp only [Option.getD_some] at hrow
    split at hrow
    · next hk => exact .inr ⟨hk, (Option.some.inj hrow).symm⟩
    · exact .inl hrow

end WebSessions

variable {cfg : Config} {cur : WebSession} {refreshed : RefreshedTokens} {now : ℤ}

/-- After a write that does not fail, the row of the session, if it has one, holds the new token. -/
theorem row_persistRefreshed {t : WebSessions} {later : ℤ} {ok : Bool}
    (hok : ok = true ∨ t.row cur.idHash = none)
    (hrow : (persistRefreshed cfg t cur refreshed now later ok).1.row h = some ws) :
    if h = cur.idHash then ws.refreshToken = refreshed.refreshToken else t.row h = some ws := by
  have hstore : ∀ accessExp idToken claimsJSON,
      (storeRefreshed t cur refreshed accessExp idToken claimsJSON later ok).1.row h = some ws →
      if h = cur.idHash then ws.refreshToken = refreshed.refreshToken else t.row h = some ws := by
    intro accessExp idToken claimsJSON hrow
    unfold storeRefreshed at hrow
    rcases ok.eq_false_or_eq_true with rfl | rfl
    · by_cases hnone : t.row cur.idHash = none
      · simp only [WebSessions.updateWebSessionTokens, hnone, Option.isNone_none, if_true] at hrow
        split
        · next hk => rw [hk, hnone] at hrow; exact absurd hrow nofun
        · exact hrow
      · simp only [WebSessions.updateWebSessionTokens, Option.isNone_iff_eq_none, hnone, if_true,
          if_false, WebSessions.modify] at hrow
        split at hrow
        · next hk =>
          obtain ⟨ws', _, rfl⟩ := Option.map_eq_some_iff.mp hrow
          rw [if_pos hk]
        · next hk => rwa [if_neg hk]
    · have hnone := hok.resolve_left nofun
      simp only [Bool.false_eq_true, if_false] at hrow
      split
      · next hk => rw [hk, hnone] at hrow; exact absurd hrow nofun
      · exact hrow
  unfold persistRefreshed at hrow
  dsimp only at hrow
  split at hrow
  · exact hstore _ _ _ hrow
  · split at hrow
    · exact hstore _ _ _ hrow
    · -- the row of a session that is no longer allowed is deleted
      unfold dropSession at hrow
      split at hrow
      · obtain ⟨hws, hne⟩ := Option.filter_eq_some_iff.mp hrow
        split
        · next hk => simp [t.keyed hws, hk] at hne
        · exact hws
      · next hfail =>
        have hnone := hok.resolve_left hfail
        split
        · next hk => rw [hk, hnone] at hrow; exact absurd hrow nofun
        · exact hrow

variable {k t : String} {f : Flight} {s' : Server} {i : ℕ} {c : Call}
  {oidcData : Option OIDCSessionData}

section inv
variable {cfg : Config} {s : Server}

theorem setFlight_of_ne {j : String} {f : Option Flight} (hj : j ≠ k) :
    (s.setFlight k f).flights j = s.flights j := if_neg hj

theorem issue_self (t k : String) : (s.issue t k).holder t = some k := if_pos rfl

theorem issue_of_ne {t' : String} (h : t' ≠ t) (k : String) :
    (s.issue t k).holder t' = s.holder t' := if_neg h

/-- Calls carry no part of the invariant. -/
theorem Inv.calls (h : Inv s) (cs : List Call) : Inv { s with calls := cs } := { h with }

theorem Inv.sessions (h : Inv s) {t : WebSessions} (ht : t.Within s.sessions) :
    Inv { s with sessions := t } := by
  refine { h with rowHeld := ?_, rowSpent := ?_ }
  · intro k ws' hrow hne
    obtain ⟨ws, hws, htok⟩ := ht k ws' hrow
    rw [htok] at hne ⊢
    exact h.rowHeld k ws hws hne
  · intro k ws' hrow hspent
    obtain ⟨ws, hws, htok⟩ := ht k ws' hrow
    exact h.rowSpent k ws hws (htok ▸ hspent)

/-- A flight that is not between answer and write may go anywhere its tokens allow. -/
theorem Inv.setFlight (h : Inv s) {f' : Option Flight} (hnot : s.exchanged k = false)
    (hkeyed : ∀ f cur, f' = some f → f.session = some cur → cur.idHash = k)
    (hlive : ∀ f t, f' = some f → t ∈ f.live → s.holder t = some k ∧ ¬s.Spent t) :
    Inv (s.setFlight k f') := by
  refine { h with keyed := ?_, live := ?_, rowSpent := ?_ }
  · intro j f cur hf hcur
    dsimp only [Server.setFlight] at hf
    split at hf
    · next hj => rw [hj]; exact hkeyed f cur hf hcur
    · exact h.keyed j f cur hf hcur
  · intro j f t hf ht
    dsimp only [Server.setFlight] at hf
    split at hf
    · next hj => rw [hj]; exact hlive f t hf ht
    · exact h.live j f t hf ht
  · intro j ws hrow hspent
    have hex := h.rowSpent j ws hrow hspent
    have hj : j ≠ k := by
      rintro rfl
      rw [hnot] at hex
      exact absurd hex nofun
    rwa [Server.exchanged, setFlight_of_ne hj]

/-- A flight may lose its token. -/
theorem Inv.setFlight_idle (h : Inv s) {f' : Flight} (hnot : s.exchanged k = false)
    (hkeyed : ∀ cur, f'.session = some cur → cur.idHash = k) (hlive : f'.live = []) :
    Inv (s.setFlight k (some f')) := by
  refine h.setFlight hnot ?_ ?_
  · rintro f cur ⟨⟩ hcur
    exact hkeyed cur hcur
  · rintro f t ⟨⟩ ht
    rw [hlive] at ht
    exact absurd ht not_mem_nil

/-- A flight that is not between answer and write may end with a write that changes no token. -/
theorem Inv.wrote (h : Inv s) (hnot : s.exchanged k = false) {r : WebSessions × Outcome}
    (hr : r.1.Within s.sessions) : Inv (s.wrote k r) := by
  have hdone : Inv (s.setFlight k (some (.finished r.2))) :=
    h.setFlight_idle hnot (fun _ hcur => nomatch hcur) rfl
  exact hdone.sessions hr

theorem Inv.present (h : Inv s) (e : Endpoint) (ht : e = .token → ¬s.Spent t) :
    Inv { s with log := .presented e t :: s.log } := by
  have hspent : ∀ t', Exchange.answered t' ∈ Exchange.presented e t :: s.log → s.Spent t' := by
    intro t' h'
    exact (mem_cons.mp h').resolve_left nofun
  refine { h with live := ?_, spentHeld := ?_, rowSpent := ?_, once := ?_ }
  · exact fun k f t' hf ht' => ⟨(h.live k f t' hf ht').1,
      fun h' => (h.live k f t' hf ht').2 (hspent t' h')⟩
  · exact fun t' h' => h.spentHeld t' (hspent t' h')
  · exact fun k ws hrow h' => h.rowSpent k ws hrow (hspent _ h')
  · refine usedOnce_cons h.once ?_
    rintro t' ⟨⟩
    exact ht rfl

/-- Issuing a new token leaves the holders of the others. -/
theorem issue_holder (hnew : s.holder t = none) {t' : String} (ht' : s.holder t' = some h) :
    (s.issue t k).holder t' = some h := by
  have hne : t' ≠ t := by
    rintro rfl
    rw [hnew] at ht'
    exact absurd ht' nofun
  rwa [issue_of_ne hne]

theorem Inv.issue (h : Inv s) (hne : t ≠ "") (hnew : s.holder t = none) (k : String) :
    Inv (s.issue t k) := by
  refine { h with unissued := ?_, rowHeld := ?_, live := ?_, spentHeld := ?_ }
  · rw [issue_of_ne hne.symm]
    exact h.unissued
  · exact fun j ws hrow htok => issue_holder hnew (h.rowHeld j ws hrow htok)
  · exact fun j f t' hf ht' => ⟨issue_holder hnew (h.live j f t' hf ht').1, (h.live j f t' hf ht').2⟩
  · intro t' hspent
    obtain ⟨j, hj⟩ := Option.ne_none_iff_exists'.mp (h.spentHeld t' hspent)
    rw [issue_holder hnew hj]
    exact nofun

/-- A token that was never issued was never exchanged. -/
theorem Inv.unspent_of_new (h : Inv s) (hnew : s.holder t = none) : ¬s.Spent t :=
  fun hspent => h.spentHeld t hspent hnew

theorem exchanged_of_flight (hf : s.flights k = some f) :
    s.exchanged k = f.isAnswered := by
  rw [Server.exchanged, hf, Option.any_some]

/-- The answer to an exchange spends its token, which no other session holds. -/
theorem Inv.succeed (h : Inv s) (hf : s.flights k = some (.presented cur))
    (hne : refreshed.refreshToken ≠ "") (hnew : s.holder refreshed.refreshToken = none) :
    Inv { (s.setFlight k (some (.answered cur refreshed))).issue refreshed.refreshToken k with
      log := .answered cur.refreshToken :: s.log } := by
  obtain ⟨hcur, _⟩ := h.live k _ cur.refreshToken hf (mem_singleton_self _)
  have hcurne : cur.refreshToken ≠ "" := by
    intro hempty
    rw [hempty, h.unissued] at hcur
    exact absurd hcur nofun
  have hspent : ∀ {t}, Exchange.answered t ∈ Exchange.answered cur.refreshToken :: s.log →
      t = cur.refreshToken ∨ s.Spent t :=
    fun h' => (mem_cons.mp h').imp Exchange.answered.inj id
  -- the new token is held by the session and is not the old one
  have hnewlive : ∀ t, t = refreshed.refreshToken →
      (s.issue refreshed.refreshToken k).holder t = some k ∧
        Exchange.answered t ∉ Exchange.answered cur.refreshToken :: s.log := by
    rintro t rfl
    refine ⟨issue_self _ _, fun h' => ?_⟩
    rcases hspent h' with heq | hsp
    · rw [heq, hcur] at hnew
      exact absurd hnew nofun
    · exact h.unspent_of_new hnew hsp
  have hi := h.issue hne hnew k
  refine { hi with keyed := ?_, live := ?_, spentHeld := ?_, rowSpent := ?_, once := ?_ }
  · intro j f cur' hf' hcur'
    dsimp only [Server.setFlight, Server.issue] at hf'
    split at hf'
    · next hj =>
      cases hf'
      rw [hj]
      exact h.keyed k _ cur' hf hcur'
    · exact h.keyed j f cur' hf' hcur'
  · intro j f t hf' ht
    dsimp only [Server.setFlight, Server.issue] at hf'
    split at hf'
    · next hj =>
      cases hf'
      rw [hj]
      exact hnewlive t (mem_singleton.mp ht)
    · next hj =>
      obtain ⟨hheld, hun⟩ := hi.live j f t hf' ht
      refine ⟨hheld, fun h' => ?_⟩
      rcases hspent h' with rfl | hsp
      · rw [issue_holder hnew hcur] at hheld
        exact hj (Option.some.inj hheld).symm
      · exact hun hsp
  · intro t h'
    rcases hspent h' with rfl | hsp
    · exact ne_of_eq_of_ne (issue_holder hnew hcur) nofun
    · exact hi.spentHeld t hsp
  · intro j ws hrow h'
    dsimp only [Server.exchanged, Server.setFlight, Server.issue]
    split
    · rfl
    · next hj =>
      rcases hspent h' with heq | hsp
      · -- the row of another session holds another token
        have hheld := h.rowHeld j ws hrow (heq ▸ hcurne)
        rw [heq, hcur] at hheld
        exact absurd (Option.some.inj hheld).symm hj
      · exact h.rowSpent j ws hrow hsp
  · exact usedOnce_cons h.once nofun

/-- The write after an answered exchange puts the new token in the place of the spent one. -/
theorem Inv.persist (h : Inv s) (hf : s.flights k = some (.answered cur refreshed)) {later : ℤ}
    {ok : Bool} (hok : ok = true ∨ s.sessions.row k = none) :
    Inv (s.wrote k (persistRefreshed cfg s.sessions cur refreshed now later ok)) := by
  have hcur : cur.idHash = k := h.keyed k _ cur hf rfl
  obtain ⟨hheld, hun⟩ := h.live k _ refreshed.refreshToken hf (mem_singleton_self _)
  have hrows : ∀ {j ws},
      (persistRefreshed cfg s.sessions cur refreshed now later ok).1.row j = some ws →
      if j = k then ws.refreshToken = refreshed.refreshToken else s.sessions.row j = some ws :=
    fun hrow => hcur ▸ row_persistRefreshed (hcur.symm ▸ hok) hrow
  refine { h with keyed := ?_, rowHeld := ?_, live := ?_, rowSpent := ?_ }
  · intro j f cur' hf' hcur'
    dsimp only [Server.wrote, Server.setFlight] at hf'
    split at hf'
    · cases hf'
      exact absurd hcur' nofun
    · exact h.keyed j f cur' hf' hcur'
  · intro j ws hrow hne
    have hcase := hrows hrow
    split at hcase
    · next hj =>
      rw [hcase, hj]
      exact hheld
    · exact h.rowHeld j ws hcase hne
  · intro j f t hf' ht
    dsimp only [Server.wrote, Server.setFlight] at hf'
    split at hf'
    · cases hf'
      exact absurd ht not_mem_nil
    · exact h.live j f t hf' ht
  · intro j ws hrow hspent
    have hcase := hrows hrow
    split at hcase
    · rw [hcase] at hspent
      exact absurd hspent hun
    · next hj =>
      rw [Server.exchanged, Server.wrote, setFlight_of_ne hj]
      exact h.rowSpent j ws hcase hspent

/-- A flight that reads its row takes a token that is not spent. -/
theorem Inv.read (h : Inv s) {stale : String} (hf : s.flights k = some (.reading stale)) (ok : Bool) :
    Inv (s.setFlight k (some (.next stale (if ok then s.sessions.row k else none)))) := by
  have hnot : s.exchanged k = false := exchanged_of_flight hf
  have hrow : ∀ ws, (if ok then s.sessions.row k else none) = some ws → s.sessions.row k = some ws := by
    intro ws hws
    split at hws
    · exact hws
    · exact absurd hws nofun
  generalize (if ok then s.sessions.row k else none) = r at hrow ⊢
  cases r with
  | none => exact h.setFlight_idle hnot (fun _ hcur => nomatch hcur) rfl
  | some cur =>
    have hcur := hrow cur rfl
    have hkey := s.sessions.keyed hcur
    unfold Flight.next
    dsimp only
    split
    · exact h.setFlight_idle hnot (fun _ hcur => nomatch hcur) rfl
    · split
      · refine h.setFlight_idle hnot ?_ rfl
        rintro _ ⟨⟩
        exact hkey
      · next hne =>
        refine h.setFlight hnot ?_ ?_
        · rintro _ _ ⟨⟩ ⟨⟩
          exact hkey
        · rintro _ t ⟨⟩ ht
          rw [mem_singleton.mp ht]
          refine ⟨h.rowHeld k cur hcur hne, fun hspent => ?_⟩
          rw [h.rowSpent k cur hcur hspent] at hnot
          exact absurd hnot nofun

/-- One step of a flight. -/
theorem Inv.fly (h : Inv s) (hf : s.flights k = some f) {e : FlightEvent}
    (hstored : Stored s (.flight k e)) (hs : fly cfg s k f e = some s') : Inv s' := by
  have hkeyed : ∀ cur, f.session = some cur → cur.idHash = k := fun cur => h.keyed k f cur hf
  have hex := exchanged_of_flight hf
  unfold Sessions.fly at hs
  split at hs
  · cases hs
    exact h.read hf _
  · cases hs
    exact h.setFlight_idle hex hkeyed rfl
  · next cur =>
    cases hs
    refine (h.setFlight hex ?_ ?_).present .token fun _ => (h.live k _ _ hf (mem_singleton_self _)).2
    · rintro _ cur' ⟨⟩ hcur'
      exact hkeyed cur' hcur'
    · rintro _ t ⟨⟩ ht
      exact h.live k _ t hf ht
  · cases hs
    exact h.setFlight_idle hex hkeyed rfl
  · cases hs
    exact h.setFlight_idle hex hkeyed rfl
  · split at hs
    · next hcond =>
      cases hs
      exact h.succeed hf hcond.1 hcond.2
    · exact absurd hs nofun
  · cases hs
    exact h.persist hf (hstored hex)
  · cases hs
    exact h.wrote hex (WebSessions.within_drop _ _)
  · next ok now _ =>
    cases hs
    refine h.wrote hex ?_
    cases ok
    · exact WebSessions.within_refl
    · exact WebSessions.within_mark _ _
  · cases hs
    refine (h.setFlight hex ?_ ?_).calls _
    · exact fun _ _ hf' => nomatch hf'
    · exact fun _ _ hf' => nomatch hf'
  · exact absurd hs nofun

theorem Inv.revoke (h : Inv s) (ws : WebSession) (configured ready : Bool) :
    Inv (s.revoke ws configured ready) := by
  unfold Server.revoke
  split
  · exact h.present .revocation nofun
  · exact h

/-- One step of a call. -/
theorem Inv.callStep (h : Inv s) {e : CallEvent} (hs : callStep cfg s i c e = some s') :
    Inv s' := by
  unfold Sessions.callStep at hs
  split at hs
  · split at hs
    · cases hs
      exact h.calls _
    · split at hs
      · cases hs
        exact h.calls _
      · cases hs
        exact h.calls _
  · cases hs
    exact (h.calls _).sessions (WebSessions.within_drop _ _)
  · next caller idHash stale =>
    split at hs
    · next hnone =>
      cases hs
      have hnot : s.exchanged idHash = false := by rw [Server.exchanged, hnone, Option.any_none]
      have hidle : Inv (s.setFlight idHash (some (.reading stale))) :=
        h.setFlight_idle hnot (fun _ hcur => nomatch hcur) rfl
      exact hidle.calls _
    · cases hs
      exact h.calls _
  · cases hs
    exact h.calls _
  · cases hs
    exact (h.revoke _ _ _).calls _
  · cases hs
    exact (h.calls _).sessions (WebSessions.within_drop _ _)
  · exact absurd hs nofun

/-- The refresh token of a new row: none, or the one of the login. -/
theorem newSession_spec {token username : String} {method : AuthMethod}
    (h : newSession cfg token username method oidcData now = some ws) :
    ws.idHash = cfg.hash token ∧
      (ws.refreshToken = "" ∨ ∃ data, oidcData = some data ∧ ws.refreshToken = data.refreshToken) := by
  unfold newSession at h
  cases oidcData with
  | none =>
    cases h
    exact ⟨rfl, .inl rfl⟩
  | some data =>
    obtain ⟨_, _, rfl⟩ := Option.map_eq_some_iff.mp h
    exact ⟨rfl, .inr ⟨data, rfl, rfl⟩⟩

theorem Inv.issueLogin (h : Inv s) (hi : issuable s oidcData) (k : String) :
    Inv (issueLogin s k oidcData) := by
  cases oidcData with
  | none => exact h
  | some data =>
    simp only [issuable, Bool.or_eq_true, beq_iff_eq, Option.isNone_iff_eq_none] at hi
    simp only [Sessions.issueLogin]
    split
    · exact h
    · next hne => exact h.issue hne (hi.resolve_left hne) k

/-- A login adds a row with a token that is held by it and not spent. -/
theorem Inv.create (h : Inv s)
    (hheld : ws.refreshToken ≠ "" → s.holder ws.refreshToken = some ws.idHash)
    (hun : ¬s.Spent ws.refreshToken) :
    Inv { s with sessions := (s.sessions.createWebSession ws).getD s.sessions } := by
  refine { h with rowHeld := ?_, rowSpent := ?_ }
  · intro k ws' hrow hne
    rcases WebSessions.row_create hrow with hold | ⟨rfl, rfl⟩
    · exact h.rowHeld k ws' hold hne
    · exact hheld hne
  · intro k ws' hrow hspent
    rcases WebSessions.row_create hrow with hold | ⟨rfl, rfl⟩
    · exact h.rowSpent k ws' hold hspent
    · exact absurd hspent hun

/-- What a login is issued. -/
theorem login_token (h : Inv s) (hi : issuable s oidcData) {token username : String}
    {method : AuthMethod} (hws : newSession cfg token username method oidcData now = some ws) :
    (ws.refreshToken ≠ "" →
      (issueLogin s (cfg.hash token) oidcData).holder ws.refreshToken = some ws.idHash) ∧
    ¬s.Spent ws.refreshToken := by
  obtain ⟨hkey, hempty | ⟨data, rfl, htok⟩⟩ := newSession_spec hws
  · rw [hempty]
    exact ⟨fun hne => absurd rfl hne, h.unspent_of_new h.unissued⟩
  · simp only [issuable, Bool.or_eq_true, beq_iff_eq, Option.isNone_iff_eq_none] at hi
    rw [htok, hkey]
    constructor
    · intro hne
      simp [Sessions.issueLogin, if_neg hne, Server.issue]
    · rcases hi with hempty | hnew
      · rw [hempty]
        exact h.unspent_of_new h.unissued
      · exact h.unspent_of_new hnew

theorem issueLogin_sessions (k : String) (oidcData : Option OIDCSessionData) :
    (issueLogin s k oidcData).sessions = s.sessions ∧ (issueLogin s k oidcData).log = s.log ∧
      (issueLogin s k oidcData).calls = s.calls := by
  unfold issueLogin
  split
  · exact ⟨rfl, rfl, rfl⟩
  · split <;> exact ⟨rfl, rfl, rfl⟩

theorem Inv.step (h : Inv s) {a : Action} (hstored : Stored s a) (hs : step cfg s a = some s') :
    Inv s' := by
  cases a with
  | create token username method oidcData now =>
    simp only [Sessions.step] at hs
    split at hs
    · next hi =>
      have hi' := h.issueLogin hi (cfg.hash token)
      obtain ⟨hsessions, hlog, _⟩ := issueLogin_sessions (s := s) (cfg.hash token) oidcData
      split at hs
      · cases hs
        exact hi'
      · next ws hws =>
        cases hs
        obtain ⟨hheld, hun⟩ := login_token h hi hws
        rw [← hsessions]
        refine hi'.create hheld ?_
        rwa [Server.Spent, hlog]
    · exact absurd hs nofun
  | request req =>
    cases hs
    exact h.calls _
  | call i e =>
    obtain ⟨c, _, hs⟩ := Option.bind_eq_some_iff.mp hs
    exact h.callStep hs
  | flight k e =>
    obtain ⟨f, hf, hs⟩ := Option.bind_eq_some_iff.mp hs
    exact h.fly hf hstored hs
  | revokeByIdpSid sid | revokeByIdpSub sub | deleteExpired now =>
    cases hs
    exact h.sessions (WebSessions.within_deleteWhere _)

end inv

/-! ### Revocation -/

/-- The tokens that `Logout` calls are about to revoke are held by their sessions and not spent. -/
structure Pending (s : Server) : Prop where
  unspent : ∀ ws, .revoking ws ∈ s.calls → ws.refreshToken ≠ "" →
    s.holder ws.refreshToken = some ws.idHash ∧ ¬s.Spent ws.refreshToken
  once : UsedOnce .revocation s.log

theorem pending_start : Pending {} where
  unspent _ hcall := nomatch hcall
  once := by simp [UsedOnce]

section pending
variable {cfg : Config} {s : Server}

/-- A step that starts no revocation, takes no token from its holder and answers no exchange. -/
theorem Pending.keep (h : Pending s)
    (hcalls : ∀ ws, Call.revoking ws ∈ s'.calls → Call.revoking ws ∈ s.calls)
    (hholder : ∀ t k, s.holder t = some k → s'.holder t = some k)
    (hlog : s'.log = s.log ∨ ∃ t, s'.log = .presented .token t :: s.log) : Pending s' := by
  have hspent : ∀ t, s'.Spent t → s.Spent t := by
    intro t hsp
    unfold Server.Spent at hsp ⊢
    rcases hlog with heq | ⟨t', heq⟩
    · rwa [heq] at hsp
    · rw [heq] at hsp
      exact (mem_cons.mp hsp).resolve_left nofun
  constructor
  · intro ws hws hne
    obtain ⟨hheld, hun⟩ := h.unspent ws (hcalls ws hws) hne
    exact ⟨hholder _ _ hheld, fun hsp => hun (hspent _ hsp)⟩
  · rcases hlog with heq | ⟨t', heq⟩
    · rw [heq]
      exact h.once
    · rw [heq]
      exact usedOnce_cons h.once nofun

theorem revoking_of_mem_set {cs : List Call} (hc : c ≠ .revoking ws)
    (h : Call.revoking ws ∈ cs.set i c) : Call.revoking ws ∈ cs :=
  (mem_or_eq_of_mem_set h).resolve_right fun heq => hc heq.symm

theorem Request.refused_ne_revoking (req : Request) (ws : WebSession) : req.refused ≠ .revoking ws := by
  cases req <;> exact fun h => nomatch h

theorem Caller.resume_ne_revoking (caller : Caller) (o : Outcome) (now later : ℤ) (ws : WebSession) :
    caller.resume cfg now later o ≠ .revoking ws := by
  intro h
  unfold Caller.resume at h
  split at h
  · exact nomatch h
  · dsimp only at h
    split at h <;> split at h <;> exact nomatch h
  · exact nomatch h
  · exact nomatch h

theorem Call.landed_eq_revoking {o : Outcome} (h : c.landed k o = .revoking ws) :
    c = .revoking ws := by
  unfold Call.landed at h
  split at h
  · split at h <;> exact nomatch h
  · exact h

/-- Only `Logout` goes on to revoke. -/
theorem Request.loaded_eq_revoking {req : Request} {ws' : WebSession}
    (h : req.loaded cfg ws now = .revoking ws') : ws' = ws ∧ ∃ token, req = .logout token := by
  cases req with
  | authenticate token | refreshNow token stale =>
    unfold Request.loaded at h
    dsimp only at h
    split at h
    · exact nomatch h
    · split at h <;> exact nomatch h
  | logout token =>
    unfold Request.loaded at h
    dsimp only at h
    split at h
    · exact ⟨(Call.revoking.inj h).symm, token, rfl⟩
    · exact nomatch h

/-- `Logout` reads a row whose token is not spent. -/
theorem Pending.load (h : Pending s) (hinv : Inv s) {token : String}
    (hrow : s.sessions.row (cfg.hash token) = some ws) (hnot : s.exchanged (cfg.hash token) = false)
    (hc : ∀ ws', c = .revoking ws' → ws' = ws) : Pending (s.setCall i c) := by
  refine ⟨fun ws' hws' hne => ?_, h.once⟩
  rcases mem_or_eq_of_mem_set hws' with hold | hnew
  · exact h.unspent ws' hold hne
  · obtain rfl := hc ws' hnew.symm
    rw [s.sessions.keyed hrow]
    refine ⟨hinv.rowHeld _ _ hrow hne, fun hsp => ?_⟩
    have hex : s.exchanged (cfg.hash token) = true := hinv.rowSpent _ _ hrow hsp
    rw [hnot] at hex
    exact absurd hex nofun

/-- Revoking a pending token. -/
theorem Pending.revoke (h : Pending s) (hws : .revoking ws ∈ s.calls) (configured ready : Bool) :
    Pending (s.revoke ws configured ready) := by
  unfold Server.revoke
  split
  · next hcond =>
    have hne : ws.refreshToken ≠ "" := by simp_all
    refine ⟨fun ws' hws' hne' => ?_, usedOnce_cons h.once ?_⟩
    · obtain ⟨hheld, hun⟩ := h.unspent ws' hws' hne'
      exact ⟨hheld, fun hsp => hun ((mem_cons.mp hsp).resolve_left nofun)⟩
    · rintro t ⟨⟩
      exact (h.unspent ws hws hne).2
  · exact h

theorem Pending.setCall (h : Pending s) (i : ℕ) (hc : ∀ ws, c ≠ .revoking ws) :
    Pending (s.setCall i c) :=
  h.keep (fun ws => revoking_of_mem_set (hc ws)) (fun _ _ => id) (.inl rfl)

theorem Pending.callStep (h : Pending s) (hinv : Inv s) (hi : s.calls[i]? = some c) {e : CallEvent}
    (hapart : Apart cfg s (.call i e)) (hs : callStep cfg s i c e = some s') : Pending s' := by
  unfold Sessions.callStep at hs
  split at hs
  · next req ok now later =>
    split at hs
    · cases hs
      exact h.setCall i req.refused_ne_revoking
    · next ws hws =>
      have hrow : s.sessions.row (cfg.hash req.token) = some ws := by
        split at hws
        · exact hws
        · exact absurd hws nofun
      split at hs
      · cases hs
        refine h.setCall i fun ws' => ?_
        split
        · exact req.refused_ne_revoking ws'
        · exact fun heq => nomatch heq
      · cases hs
        cases req with
        | logout token =>
          simp only [Apart, hi] at hapart
          exact h.load hinv hrow hapart fun ws' heq => (Request.loaded_eq_revoking heq).1
        | authenticate token | refreshNow token stale =>
          refine h.setCall i fun ws' heq => ?_
          obtain ⟨_, hreq⟩ := (Request.loaded_eq_revoking heq).2
          exact nomatch hreq
  · next req idHash ok =>
    cases hs
    exact h.keep (fun ws => revoking_of_mem_set (req.refused_ne_revoking ws)) (fun _ _ => id) (.inl rfl)
  · split at hs
    · cases hs
      exact h.keep (fun ws => revoking_of_mem_set fun heq => nomatch heq) (fun _ _ => id) (.inl rfl)
    · cases hs
      exact h.setCall i fun _ heq => nomatch heq
  · next caller o now later =>
    cases hs
    exact h.setCall i (caller.resume_ne_revoking o now later)
  · next ws configured ready url =>
    cases hs
    exact (h.revoke (mem_of_getElem? hi) configured ready).setCall i fun _ heq => nomatch heq
  · cases hs
    exact h.keep (fun ws => revoking_of_mem_set fun heq => nomatch heq) (fun _ _ => id) (.inl rfl)
  · exact absurd hs nofun

/-- An exchange spends the token of a session that no `Logout` is about to revoke. -/
theorem Pending.succeed (h : Pending s) (hinv : Inv s) (hf : s.flights k = some (.presented cur))
    (hnew : s.holder refreshed.refreshToken = none) (hapart : ∀ c ∈ s.calls, c.revokes k = false) :
    Pending { (s.setFlight k (some (.answered cur refreshed))).issue refreshed.refreshToken k with
      log := .answered cur.refreshToken :: s.log } := by
  obtain ⟨hcur, _⟩ := hinv.live k _ cur.refreshToken hf (mem_singleton_self _)
  refine ⟨fun ws hws hne => ?_, usedOnce_cons h.once nofun⟩
  obtain ⟨hheld, hun⟩ := h.unspent ws hws hne
  refine ⟨issue_holder hnew hheld, fun hsp => ?_⟩
  rcases mem_cons.mp hsp with heq | hsp
  · have hkey : ws.idHash = k := by
      rw [Exchange.answered.inj heq, hcur] at hheld
      exact (Option.some.inj hheld).symm
    have hrev := hapart _ hws
    simp [Call.revokes, hkey] at hrev
  · exact hun hsp

theorem Pending.fly (h : Pending s) (hinv : Inv s) (hf : s.flights k = some f) {e : FlightEvent}
    (hapart : Apart cfg s (.flight k e)) (hs : fly cfg s k f e = some s') : Pending s' := by
  have hquiet : ∀ {s₁ : Server}, s₁.calls = s.calls → s₁.holder = s.holder →
      (s₁.log = s.log ∨ ∃ t, s₁.log = .presented .token t :: s.log) → Pending s₁ := by
    intro s₁ hcalls hholder hlog
    refine h.keep (fun ws hws => hcalls ▸ hws) (fun t j hj => ?_) hlog
    rwa [hholder]
  unfold Sessions.fly at hs
  split at hs
  · cases hs
    exact hquiet rfl rfl (.inl rfl)
  · cases hs
    exact hquiet rfl rfl (.inl rfl)
  · cases hs
    exact hquiet rfl rfl (.inr ⟨_, rfl⟩)
  · cases hs
    exact hquiet rfl rfl (.inl rfl)
  · cases hs
    exact hquiet rfl rfl (.inl rfl)
  · split at hs
    · next hcond =>
      cases hs
      exact h.succeed hinv hf hcond.2 hapart
    · exact absurd hs nofun
  · cases hs
    exact hquiet rfl rfl (.inl rfl)
  · cases hs
    exact hquiet rfl rfl (.inl rfl)
  · cases hs
    exact hquiet rfl rfl (.inl rfl)
  · cases hs
    refine h.keep (fun ws hws => ?_) (fun _ _ => id) (.inl rfl)
    obtain ⟨c, hc, heq⟩ := mem_map.mp hws
    rwa [← Call.landed_eq_revoking heq]
  · exact absurd hs nofun

theorem issueLogin_holder (hi : issuable s oidcData) {j : String} (h : s.holder t = some j) :
    (issueLogin s k oidcData).holder t = some j := by
  cases oidcData with
  | none => exact h
  | some data =>
    simp only [issuable, Bool.or_eq_true, beq_iff_eq, Option.isNone_iff_eq_none] at hi
    unfold issueLogin
    dsimp only
    split
    · exact h
    · next hne => exact issue_holder (hi.resolve_left hne) h

theorem Pending.step (h : Pending s) (hinv : Inv s) {a : Action} (hapart : Apart cfg s a)
    (hs : step cfg s a = some s') : Pending s' := by
  cases a with
  | create token username method oidcData now =>
    simp only [Sessions.step] at hs
    split at hs
    · next hi =>
      obtain ⟨_, hlog, hcalls⟩ := issueLogin_sessions (s := s) (cfg.hash token) oidcData
      have hlogin : Pending (issueLogin s (cfg.hash token) oidcData) :=
        h.keep (fun ws hws => hcalls ▸ hws) (fun _ _ => issueLogin_holder hi) (.inl hlog)
      split at hs
      · cases hs
        exact hlogin
      · cases hs
        exact hlogin.keep (fun _ => id) (fun _ _ => id) (.inl rfl)
    · exact absurd hs nofun
  | request req =>
    cases hs
    refine h.keep (fun ws hws => ?_) (fun _ _ => id) (.inl rfl)
    refine (mem_append.mp hws).resolve_right fun hnew => ?_
    have heq := mem_singleton.mp hnew
    split at heq
    · exact req.refused_ne_revoking ws heq.symm
    · exact nomatch heq
  | call i e =>
    obtain ⟨c, hi, hs⟩ := Option.bind_eq_some_iff.mp hs
    exact h.callStep hinv hi hapart hs
  | flight k e =>
    obtain ⟨f, hf, hs⟩ := Option.bind_eq_some_iff.mp hs
    exact h.fly hinv hf hapart hs
  | revokeByIdpSid sid | revokeByIdpSub sub | deleteExpired now =>
    cases hs
    exact h.keep (fun _ => id) (fun _ _ => id) (.inl rfl)

end pending

/-! ### Every run -/

theorem inv_of_run {as : List Action} {s : Server} (hstored : Meets (step cfg) Stored {} as)
    (hrun : run (step cfg) {} as = some s) : Inv s :=
  inv_run_meets (I := Inv) (fun _ _ _ hI hC hs => hI.step hC hs) inv_start hstored hrun

theorem pending_of_run {as : List Action} {s : Server} (hstored : Meets (step cfg) Stored {} as)
    (hapart : Meets (step cfg) (Apart cfg) {} as) (hrun : run (step cfg) {} as = some s) :
    Pending s := by
  have hboth : Inv s ∧ Pending s := inv_run_meets (I := fun s => Inv s ∧ Pending s)
    (fun _ _ _ hI hC hs => ⟨hI.1.step hC.1 hs, hI.2.step hI.1 hC.2 hs⟩)
    ⟨inv_start, pending_start⟩ (hstored.and hapart) hrun
  exact hboth.2

/-- CORRECT: in every run in which no write after a successful exchange fails, no refresh token is sent
    for exchange once its exchange was answered; and where in addition no `Logout` overlaps such an
    exchange, none is sent for revocation either. -/
theorem refresh_token_used_once (cfg : Config) {as : List Action} {s : Server}
    (hrun : run (step cfg) {} as = some s) (hstored : Meets (step cfg) Stored {} as) :
    UsedOnce .token s.log ∧ (Meets (step cfg) (Apart cfg) {} as → UsedOnce .revocation s.log) :=
  ⟨(inv_of_run hstored hrun).once, fun hapart => (pending_of_run hstored hapart hrun).once⟩

/-! ### A failed write -/

instance (s : Server) (a : Action) : Decidable (Stored s a) := by
  unfold Stored; split <;> infer_instance

/-- A writer whose hash and JSON are trivial. -/
def plainConfig : Config where
  ttl := 43200
  grace := 3600
  readOnly := false
  requiredGroup := "users"
  hash := id
  marshal _ := some ""

def login : Action :=
  .create "cookie" "user" .oidc
    (some ⟨⟨"sub", "sid", ["users"], [], ""⟩, "id", "access-1", "refresh-1", some 900⟩) 0

/-- `Authenticate` as call `i`, up to the answer of the provider. -/
def authenticateUntilAnswer (i : ℕ) (now : ℤ) (access refresh : String) : List Action :=
  [.request (.authenticate "cookie"), .call i (.load true now now), .call i .join,
    .flight "cookie" (.read true), .flight "cookie" .send,
    .flight "cookie" (.succeed ⟨access, refresh, some (now + 900), "", none⟩)]

/-- Two refreshes, the second with the token of the first. -/
theorem refresh_token_used_once_twice :
    ∃ s, run (step plainConfig) {}
        (login :: authenticateUntilAnswer 0 1000 "access-2" "refresh-2" ++
          [.flight "cookie" (.write true 1000 1000), .flight "cookie" .land] ++
          authenticateUntilAnswer 1 2000 "access-3" "refresh-3") = some s ∧
      s.log = [.answered "refresh-2", .presented .token "refresh-2", .answered "refresh-1",
        .presented .token "refresh-1"] ∧
      UsedOnce .token s.log := by
  have hlog : (run (step plainConfig) {}
      (login :: authenticateUntilAnswer 0 1000 "access-2" "refresh-2" ++
        [.flight "cookie" (.write true 1000 1000), .flight "cookie" .land] ++
        authenticateUntilAnswer 1 2000 "access-3" "refresh-3")).map Server.log =
      some [.answered "refresh-2", .presented .token "refresh-2", .answered "refresh-1",
        .presented .token "refresh-1"] := by decide +kernel
  obtain ⟨s, hrun, hs⟩ := Option.map_eq_some_iff.mp hlog
  exact ⟨s, hrun, hs, (refresh_token_used_once plainConfig hrun (by decide +kernel)).1⟩

/-- The write after the answer fails: the row keeps the spent token, and the next request sends it. -/
theorem failed_write_replays_token :
    ∃ s, run (step plainConfig) {}
        (login :: authenticateUntilAnswer 0 1000 "access-2" "refresh-2" ++
          [.flight "cookie" (.write false 1000 1000), .flight "cookie" .land,
            .request (.authenticate "cookie"), .call 1 (.load true 2000 2000), .call 1 .join,
            .flight "cookie" (.read true), .flight "cookie" .send]) = some s ∧
      ¬UsedOnce .token s.log := by
  have hlog : (run (step plainConfig) {}
      (login :: authenticateUntilAnswer 0 1000 "access-2" "refresh-2" ++
        [.flight "cookie" (.write false 1000 1000), .flight "cookie" .land,
          .request (.authenticate "cookie"), .call 1 (.load true 2000 2000), .call 1 .join,
          .flight "cookie" (.read true), .flight "cookie" .send])).map Server.log =
      some [.presented .token "refresh-1", .answered "refresh-1", .presented .token "refresh-1"] := by
    decide +kernel
  obtain ⟨s, hrun, hs⟩ := Option.map_eq_some_iff.mp hlog
  refine ⟨s, hrun, fun honce => honce [] "refresh-1" _ hs ?_⟩
  exact mem_cons_self

end Spanbarn.Sessions
