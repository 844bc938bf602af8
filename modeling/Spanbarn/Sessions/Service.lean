import Mathlib.Algebra.Order.Ring.Int
import Mathlib.Logic.Function.Basic
import Spanbarn.Schemes.Run

/-! Token-bound browser sessions.

    A session cookie is a handle; the row behind its hash holds the tokens of the identity provider. A
    request past the access token exchanges the refresh token, in one flight per session:

        Authenticate ─┐            ┌ read the row ─ present ─ answered ─ write the row ┐
                      ├─ join ─────┤                                                   ├─ land
        RefreshNow ───┘   (wait)   └ gone, already renewed, rejected, no answer ───────┘

        Logout ── read the row ── revoke its refresh token ── delete the row

    Everything between two steps of a flight or a call may be a step of another one. Each read and write
    of the store may fail, and the provider answers what it likes. -/

namespace Spanbarn.Sessions
open Spanbarn.Schemes

/-! ### The store -/

inductive AuthMethod where
  | oidc | localLogin | e2e
  deriving DecidableEq, Repr

/-- A row of `web_sessions`; an empty text or a zero stands for NULL. Times are Unix seconds. -/
structure WebSession where
  idHash : String
  username : String
  authMethod : AuthMethod
  idpSub : String := ""
  idpSid : String := ""
  idToken : String := ""
  accessToken : String := ""
  refreshToken : String := ""
  accessExpiresAt : ℤ := 0
  claimsJSON : String := ""
  createdAt : ℤ
  absoluteExpiresAt : ℤ
  lastRefreshAt : ℤ := 0
  refreshFailingSince : ℤ := 0
  deriving DecidableEq, Repr

/-- The table, keyed by `id_hash`. -/
structure WebSessions where
  row : String → Option WebSession := fun _ => none
  keyed : ∀ {h ws}, row h = some ws → ws.idHash = h := by simp

namespace WebSessions

/-- The row of a key is replaced by `f` of it. -/
def modify (t : WebSessions) (h : String) (f : WebSession → WebSession)
    (hf : ∀ ws, (f ws).idHash = ws.idHash) : WebSessions where
  row k := if k = h then (t.row k).map f else t.row k
  keyed {k ws} hk := by
    split at hk
    · obtain ⟨ws', hws', rfl⟩ := Option.map_eq_some_iff.mp hk
      rw [hf, t.keyed hws']
    · exact t.keyed hk

/-- The rows `p` holds of are deleted. -/
def deleteWhere (t : WebSessions) (p : WebSession → Bool) : WebSessions where
  row k := (t.row k).filter fun ws => !p ws
  keyed hk := t.keyed (Option.filter_eq_some_iff.mp hk).1

/-- `none` when the key is taken. -/
def createWebSession (t : WebSessions) (ws : WebSession) : Option WebSessions :=
  if (t.row ws.idHash).isSome then none
  else some
    { row := fun k => if k = ws.idHash then some ws else t.row k
      keyed := by
        intro k ws' hk
        split at hk
        · next h => rw [h, ← Option.some.inj hk]
        · exact t.keyed hk }

def firstNonEmpty (a b : String) : String := if a ≠ "" then a else b

/-- The rotated tokens; `none` when there is no row to update. -/
def updateWebSessionTokens (t : WebSessions) (idHash idToken accessToken refreshToken : String)
    (accessExpiresAt : ℤ) (claimsJSON : String) (lastRefreshAt : ℤ) : Option WebSessions :=
  if (t.row idHash).isNone then none
  else some (t.modify idHash (fun ws =>
    { ws with
      idToken := firstNonEmpty idToken ws.idToken
      accessToken := accessToken
      refreshToken := refreshToken
      accessExpiresAt := accessExpiresAt
      claimsJSON := firstNonEmpty claimsJSON ws.claimsJSON
      lastRefreshAt := lastRefreshAt
      refreshFailingSince := 0 }) fun _ => rfl)

/-- The stamp of the first failure stays. -/
def markWebSessionRefreshFailing (t : WebSessions) (idHash : String) (since : ℤ) : WebSessions :=
  t.modify idHash (fun ws => { ws with
    refreshFailingSince := if ws.refreshFailingSince = 0 then since else ws.refreshFailingSince })
    fun _ => rfl

def deleteWebSession (t : WebSessions) (idHash : String) : WebSessions :=
  t.deleteWhere fun ws => ws.idHash == idHash

def deleteWebSessionsByIdpSid (t : WebSessions) (sid : String) : WebSessions :=
  t.deleteWhere fun ws => ws.idpSid != "" && ws.idpSid == sid

def deleteWebSessionsByIdpSub (t : WebSessions) (sub : String) : WebSessions :=
  t.deleteWhere fun ws => ws.idpSub != "" && ws.idpSub == sub

def deleteExpiredWebSessions (t : WebSessions) (now : ℤ) : WebSessions :=
  t.deleteWhere fun ws => decide (ws.absoluteExpiresAt < now)

end WebSessions

/-! ### The provider -/

/-- `other` are the claims that no check reads. -/
structure OIDCClaims where
  subject : String
  sessionID : String
  groups : List String
  roles : List String
  other : String := ""
  deriving DecidableEq, Repr

/-- The answer to an exchange; `claims` when it came with an id token. -/
structure RefreshedTokens where
  accessToken : String
  refreshToken : String
  expiresAt : Option ℤ := none
  idToken : String := ""
  claims : Option OIDCClaims := none
  deriving DecidableEq, Repr

/-- What a login brings from the provider. -/
structure OIDCSessionData where
  claims : OIDCClaims
  idToken : String
  accessToken : String
  refreshToken : String
  accessExpiresAt : Option ℤ
  deriving DecidableEq, Repr

/-- Where a refresh token can be sent. -/
inductive Endpoint where
  | token | revocation
  deriving DecidableEq, Repr

/-- What passes between the service and the provider. -/
inductive Exchange where
  | presented (endpoint : Endpoint) (token : String)
  | answered (token : String)
  deriving DecidableEq, Repr

/-! ### The service -/

/-- `hash` is SHA-256 of a session token, `marshal` the JSON of the claims. -/
structure Config where
  ttl : ℤ
  grace : ℤ
  readOnly : Bool
  requiredGroup : String
  hash : String → String
  marshal : OIDCClaims → Option String

def accessTokenSkew : ℤ := 30

def accessTokenFallbackTTL : ℤ := 15 * 60

/-- Some roles pass without the group. -/
def Config.allowed (cfg : Config) (claims : OIDCClaims) : Bool :=
  (claims.roles.any fun role => role ∈ ["owner", "organization_admin", "operator"]) ||
    claims.groups.any fun g => g == cfg.requiredGroup

/-- What `refreshSession` returns: the row and no error, the stale row with `errRefreshUnavailable`, or
    `errSessionInvalid`. -/
inductive Outcome where
  | fresh (ws : WebSession)
  | stale (ws : WebSession)
  | invalid
  deriving DecidableEq, Repr

structure AuthResult where
  session : WebSession
  refreshDue : Bool := false
  deriving DecidableEq, Repr

/-- The function of the flight group. `stale` is the access token its first caller saw. -/
inductive Flight where
  | reading (stale : String)
  | renewing (cur : WebSession)
  | presented (cur : WebSession)
  | answered (cur : WebSession) (refreshed : RefreshedTokens)
  | dropping (cur : WebSession)
  | marking (cur : WebSession)
  | finished (o : Outcome)
  deriving DecidableEq, Repr

inductive Request where
  | authenticate (token : String)
  | refreshNow (token staleAccessToken : String)
  | logout (token : String)
  deriving DecidableEq, Repr

/-- Who called `refreshSession`. -/
inductive Caller where
  | authenticate | refreshNow
  deriving DecidableEq, Repr

/-- A request and how far it is. -/
inductive Call where
  | loading (req : Request)
  | expiring (req : Request) (idHash : String)
  | joining (caller : Caller) (idHash stale : String)
  | waiting (caller : Caller) (idHash : String)
  | resumed (caller : Caller) (o : Outcome)
  | revoking (ws : WebSession)
  | leaving (idHash : String) (idTokenHint : Option String)
  | authenticated (r : Option AuthResult)
  | refreshed (o : Outcome)
  | loggedOut (idTokenHint : Option String)
  deriving DecidableEq, Repr

/-- The writer with its store and the provider. `holder` tells for which session the provider issued a
    token; `log` is what passed between the two, the newest first. -/
structure Server where
  sessions : WebSessions := {}
  flights : String → Option Flight := fun _ => none
  calls : List Call := []
  holder : String → Option String := fun _ => none
  log : List Exchange := []

def accessExpired (ws : WebSession) (now : ℤ) : Bool :=
  ws.accessExpiresAt ≠ 0 && decide (ws.accessExpiresAt ≤ now + accessTokenSkew)

def serveStaleReadOnly (cfg : Config) (ws : WebSession) (now : ℤ) : Option AuthResult :=
  if now ≤ ws.accessExpiresAt + cfg.grace then some ⟨ws, true⟩ else none

/-- A request that ends without a valid session. -/
def Request.refused : Request → Call
  | .authenticate _ => .authenticated none
  | .refreshNow .. => .refreshed .invalid
  | .logout _ => .loggedOut none

def Request.token : Request → String
  | .authenticate token => token
  | .refreshNow token _ => token
  | .logout token => token

/-- `Authenticate`, `RefreshNow` and `Logout` after the row is read. -/
def Request.loaded (cfg : Config) (ws : WebSession) (now : ℤ) : Request → Call
  | .authenticate _ =>
    if ws.authMethod ≠ .oidc ∨ accessExpired ws now = false then .authenticated (some ⟨ws, false⟩)
    else if cfg.readOnly then .authenticated (serveStaleReadOnly cfg ws now)
    else .joining .authenticate ws.idHash ws.accessToken
  | .refreshNow _ stale =>
    if ws.authMethod ≠ .oidc then .refreshed (.fresh ws)
    else if cfg.readOnly then .refreshed (.stale ws)
    else .joining .refreshNow ws.idHash (if stale = "" then ws.accessToken else stale)
  | .logout _ => if ws.authMethod = .oidc then .revoking ws else .leaving ws.idHash none

/-- The callers after the flight; a stale row is served until the grace from its first failure ends. -/
def Caller.resume (cfg : Config) (now later : ℤ) : Caller → Outcome → Call
  | .authenticate, .fresh ws => .authenticated (some ⟨ws, false⟩)
  | .authenticate, .stale ws =>
    let failingSince := if ws.refreshFailingSince = 0 then now else ws.refreshFailingSince
    if later - failingSince ≤ cfg.grace then .authenticated (some ⟨ws, false⟩) else .authenticated none
  | .authenticate, .invalid => .authenticated none
  | .refreshNow, o => .refreshed o

/-- The end of `performRefresh`: the row with the new tokens, or `errSessionInvalid` when they could not
    be written. -/
def storeRefreshed (t : WebSessions) (cur : WebSession) (refreshed : RefreshedTokens) (accessExp : ℤ)
    (idToken claimsJSON : String) (now : ℤ) (ok : Bool) : WebSessions × Outcome :=
  let updated := if ok then t.updateWebSessionTokens cur.idHash idToken refreshed.accessToken
    refreshed.refreshToken accessExp claimsJSON now else none
  match updated with
  | none => (t, .invalid)
  | some t' => (t', .fresh
    { cur with
      idToken := WebSessions.firstNonEmpty idToken cur.idToken
      accessToken := refreshed.accessToken
      refreshToken := refreshed.refreshToken
      accessExpiresAt := accessExp
      claimsJSON := if claimsJSON ≠ "" then claimsJSON else cur.claimsJSON
      lastRefreshAt := now
      refreshFailingSince := 0 })

/-- The errors of the deletes are dropped. -/
def dropSession (t : WebSessions) (idHash : String) (ok : Bool) : WebSessions :=
  if ok then t.deleteWebSession idHash else t

/-- `performRefresh` after a successful exchange: claims that are no longer allowed end the session. -/
def persistRefreshed (cfg : Config) (t : WebSessions) (cur : WebSession) (refreshed : RefreshedTokens)
    (now later : ℤ) (ok : Bool) : WebSessions × Outcome :=
  let accessExp := refreshed.expiresAt.getD (now + accessTokenFallbackTTL)
  match refreshed.claims with
  | none => storeRefreshed t cur refreshed accessExp "" "" later ok
  | some claims =>
    if cfg.allowed claims then
      storeRefreshed t cur refreshed accessExp refreshed.idToken ((cfg.marshal claims).getD "") later ok
    else (dropSession t cur.idHash ok, .invalid)

def markRefreshFailing (t : WebSessions) (cur : WebSession) (now : ℤ) (ok : Bool) :
    WebSessions × Outcome :=
  (if ok then t.markWebSessionRefreshFailing cur.idHash now else t,
    .stale { cur with
      refreshFailingSince := if cur.refreshFailingSince = 0 then now else cur.refreshFailingSince })

/-- What happens to a flight. `unsent` is a missing client or one that fails before it sends; `write`
    is the one write to the store the flight ends with. -/
inductive FlightEvent where
  | read (ok : Bool)
  | unsent
  | send
  | reject
  | timeout
  | succeed (refreshed : RefreshedTokens)
  | write (ok : Bool) (now later : ℤ)
  | land
  deriving DecidableEq, Repr

def Server.setFlight (s : Server) (h : String) (f : Option Flight) : Server :=
  { s with flights := fun k => if k = h then f else s.flights k }

/-- Where a flight goes from the row it read. -/
def Flight.next (stale : String) : Option WebSession → Flight
  | none => .finished .invalid
  | some cur =>
    if cur.accessToken ≠ stale then .finished (.fresh cur)
    else if cur.refreshToken = "" then .dropping cur
    else .renewing cur

/-- The waiting callers of a flight get its outcome. -/
def Call.landed (h : String) (o : Outcome) : Call → Call
  | .waiting caller idHash => if idHash = h then .resumed caller o else .waiting caller idHash
  | c => c

/-- The store after the write a flight ends with, and its outcome. -/
def Server.wrote (s : Server) (h : String) (r : WebSessions × Outcome) : Server :=
  { s.setFlight h (some (.finished r.2)) with sessions := r.1 }

/-- The provider issues a token for a session. -/
def Server.issue (s : Server) (t h : String) : Server :=
  { s with holder := fun k => if k = t then some h else s.holder k }

/-- `refreshSession`'s function and `performRefresh`. The provider rotates: the new token was never
    issued before. -/
def fly (cfg : Config) (s : Server) (h : String) : Flight → FlightEvent → Option Server
  | .reading stale, .read ok =>
    some (s.setFlight h (some (.next stale (if ok then s.sessions.row h else none))))
  | .renewing cur, .unsent => some (s.setFlight h (some (.marking cur)))
  | .renewing cur, .send =>
    some { s.setFlight h (some (.presented cur)) with
      log := .presented .token cur.refreshToken :: s.log }
  | .presented cur, .reject => some (s.setFlight h (some (.dropping cur)))
  | .presented cur, .timeout => some (s.setFlight h (some (.marking cur)))
  | .presented cur, .succeed refreshed =>
    if refreshed.refreshToken ≠ "" ∧ s.holder refreshed.refreshToken = none then
      some { (s.setFlight h (some (.answered cur refreshed))).issue refreshed.refreshToken h with
        log := .answered cur.refreshToken :: s.log }
    else none
  | .answered cur refreshed, .write ok now later =>
    some (s.wrote h (persistRefreshed cfg s.sessions cur refreshed now later ok))
  | .dropping cur, .write ok _ _ => some (s.wrote h (dropSession s.sessions cur.idHash ok, .invalid))
  | .marking cur, .write ok now _ => some (s.wrote h (markRefreshFailing s.sessions cur now ok))
  | .finished o, .land =>
    some { s.setFlight h none with calls := s.calls.map (Call.landed h o) }
  | _, _ => none

/-- What happens to a call. -/
inductive CallEvent where
  | load (ok : Bool) (now later : ℤ)
  | expire (ok : Bool)
  | join
  | resume (now later : ℤ)
  | revoke (configured ready url : Bool)
  | leave (ok : Bool)
  deriving DecidableEq, Repr

def Server.setCall (s : Server) (i : ℕ) (c : Call) : Server := { s with calls := s.calls.set i c }

/-- `load` enforces the absolute cap; `Logout` does not go through it. -/
def Request.capped (ws : WebSession) (now : ℤ) : Request → Bool
  | .logout _ => false
  | _ => decide (ws.absoluteExpiresAt ≤ now)

/-- `Logout` revokes the refresh token if there is a client, and if it can reach the provider. -/
def Server.revoke (s : Server) (ws : WebSession) (configured ready : Bool) : Server :=
  if configured && ready && ws.refreshToken ≠ "" then
    { s with log := .presented .revocation ws.refreshToken :: s.log }
  else s

def callStep (cfg : Config) (s : Server) (i : ℕ) : Call → CallEvent → Option Server
  | .loading req, .load ok now later =>
    match if ok then s.sessions.row (cfg.hash req.token) else none with
    | none => some (s.setCall i req.refused)
    | some ws =>
      if req.capped ws now then
        some (s.setCall i (if cfg.readOnly then req.refused else .expiring req ws.idHash))
      else some (s.setCall i (req.loaded cfg ws later))
  | .expiring req idHash, .expire ok =>
    some { s.setCall i req.refused with sessions := dropSession s.sessions idHash ok }
  | .joining caller idHash stale, .join =>
    match s.flights idHash with
    | none => some ((s.setFlight idHash (some (.reading stale))).setCall i (.waiting caller idHash))
    | some _ => some (s.setCall i (.waiting caller idHash))
  | .resumed caller o, .resume now later => some (s.setCall i (caller.resume cfg now later o))
  | .revoking ws, .revoke configured ready url =>
    some ((s.revoke ws configured ready).setCall i
      (.leaving ws.idHash (if configured && url then some ws.idToken else none)))
  | .leaving idHash hint, .leave ok =>
    some { s.setCall i (.loggedOut hint) with sessions := dropSession s.sessions idHash ok }
  | _, _ => none

/-- `Create`: the row of a login; `none` when the claims cannot be marshalled. -/
def newSession (cfg : Config) (token username : String) (method : AuthMethod)
    (oidcData : Option OIDCSessionData) (now : ℤ) : Option WebSession :=
  let ws : WebSession :=
    { idHash := cfg.hash token, username := username, authMethod := method, createdAt := now,
      absoluteExpiresAt := now + cfg.ttl }
  match oidcData with
  | none => some ws
  | some data => (cfg.marshal data.claims).map fun claimsJSON =>
    { ws with
      idpSub := data.claims.subject
      idpSid := data.claims.sessionID
      idToken := data.idToken
      accessToken := data.accessToken
      refreshToken := data.refreshToken
      accessExpiresAt := data.accessExpiresAt.getD (now + accessTokenFallbackTTL)
      claimsJSON := claimsJSON }

/-- What may happen next: a login, a request, a step of a call or of a flight, or a delete from outside
    (back-channel logout, the retention loop). -/
inductive Action where
  | create (token username : String) (method : AuthMethod) (oidcData : Option OIDCSessionData) (now : ℤ)
  | request (req : Request)
  | call (i : ℕ) (e : CallEvent)
  | flight (h : String) (e : FlightEvent)
  | revokeByIdpSid (sid : String)
  | revokeByIdpSub (sub : String)
  | deleteExpired (now : ℤ)
  deriving DecidableEq, Repr

/-- The refresh token of a login, if it brings one, is new. -/
def issuable (s : Server) : Option OIDCSessionData → Bool
  | none => true
  | some data => data.refreshToken == "" || (s.holder data.refreshToken).isNone

def issueLogin (s : Server) (h : String) : Option OIDCSessionData → Server
  | none => s
  | some data => if data.refreshToken = "" then s else s.issue data.refreshToken h

def step (cfg : Config) (s : Server) : Action → Option Server
  | .create token username method oidcData now =>
    if issuable s oidcData then
      let s' := issueLogin s (cfg.hash token) oidcData
      match newSession cfg token username method oidcData now with
      | none => some s'
      | some ws => some { s' with sessions := (s.sessions.createWebSession ws).getD s.sessions }
    else none
  | .request req =>
    some { s with calls := s.calls ++ [if req.token = "" then req.refused else .loading req] }
  | .call i e => (s.calls[i]?).bind fun c => callStep cfg s i c e
  | .flight h e => (s.flights h).bind fun f => fly cfg s h f e
  | .revokeByIdpSid sid => some { s with sessions := s.sessions.deleteWebSessionsByIdpSid sid }
  | .revokeByIdpSub sub => some { s with sessions := s.sessions.deleteWebSessionsByIdpSub sub }
  | .deleteExpired now => some { s with sessions := s.sessions.deleteExpiredWebSessions now }

end Spanbarn.Sessions
