import Mathlib.Data.List.Induction
import LpPlatform.CookieJar
import LpPlatform.JsValues

/-!
# The cookies of both logins

A login sets the cookie with its token, and a logout removes it. Both apply to
a domain once one is configured, and to the host of the API until then, so a
login and a logout of brokers also remove what was set for the host. Those of
the platform's users remove the cookies of an earlier release, too, which had a
narrower path. Along every run of logins and logouts, over the change of the
configuration, the API reads the token of the session that a broker is in. For
a user of the platform it does so but for two cases: after the change, a logout
leaves what was set before it, and a cookie of the earlier release for the host
hides all others.
-/

namespace LpPlatform.SessionCookies

open CookieJar JsValues

/-- The two variables of the configuration. -/
structure CookieConfig where
  /-- `COOKIE_DOMAIN`. -/
  cookieDomain : Option String
  /-- `ADMIN_COOKIE_DOMAIN`. -/
  adminCookieDomain : Option String

/-- A value without blanks around it, unless it is blank. -/
def clean (value : Option String) : Option String :=
  (value.map fun v => String.ofList (trim v.toList)).filter (· ≠ "")

/-- `cookieDomainOpt`. -/
def cookieDomainOpt (cfg : CookieConfig) : Option String :=
  (clean cfg.cookieDomain).orElse fun _ => clean cfg.adminCookieDomain

/-- `reply.setCookie`. -/
def setCookie (name value : String) (domain : Option String) : SetCookie := ⟨name, some value, domain, "/"⟩

/-- `reply.clearCookie`. -/
def clearCookie (name path : String) (domain : Option String) : SetCookie := ⟨name, none, domain, path⟩

/-- The cookie of brokers. -/
def LP_ACCESS : String := "lp_access"

/-- The cookie of the platform's users. -/
def ADMIN_COOKIE : String := "lp_admin_access"

def ADMIN_ACTIVITY_COOKIE : String := "lp_admin_last_activity"

/-- The path of the earlier release. -/
def NARROW_PATH : String := "/api/v1/admin"

/-- The cookies of `AuthController.login`. -/
def login (cfg : CookieConfig) (accessToken : String) : List SetCookie :=
  let domain := cookieDomainOpt cfg
  (if domain.isSome then [clearCookie LP_ACCESS "/" none] else []) ++
    [setCookie LP_ACCESS accessToken domain]

/-- The cookies of `AuthController.logout`. -/
def logout (cfg : CookieConfig) : List SetCookie :=
  let domain := cookieDomainOpt cfg
  clearCookie LP_ACCESS "/" domain :: if domain.isSome then [clearCookie LP_ACCESS "/" none] else []

/-- The cookies of `AdminAuthController.login`. -/
def adminLogin (cfg : CookieConfig) (accessToken now : String) : List SetCookie :=
  let domain := cookieDomainOpt cfg
  clearCookie ADMIN_COOKIE NARROW_PATH domain ::
    ((if domain.isSome then [clearCookie ADMIN_COOKIE "/" none, clearCookie ADMIN_ACTIVITY_COOKIE "/" none]
      else []) ++
    [setCookie ADMIN_COOKIE accessToken domain, setCookie ADMIN_ACTIVITY_COOKIE now domain])

/-- The cookies of `AdminAuthController.logout`. -/
def adminLogout (cfg : CookieConfig) : List SetCookie :=
  let domain := cookieDomainOpt cfg
  [clearCookie ADMIN_COOKIE "/" domain, clearCookie ADMIN_COOKIE NARROW_PATH domain,
    clearCookie ADMIN_ACTIVITY_COOKIE "/" domain]

/-- Where a browser signs in. -/
inductive Console where
  | broker
  | admin
  deriving DecidableEq

/-- The name of the cookie. -/
def Console.cookie : Console → String
  | .broker => LP_ACCESS
  | .admin => ADMIN_COOKIE

/-- A login that is answered with a token, or a logout. -/
inductive SignEvent where
  | login (token now : String)
  | logout
  deriving DecidableEq

/-- A login or a logout at a console, and the configuration of the API by
then. -/
structure Visit where
  console : Console
  cfg : CookieConfig
  event : SignEvent

/-- The cookies of the response. -/
def Visit.cookies (v : Visit) : List SetCookie :=
  match v.console, v.event with
  | .broker, .login token _ => login v.cfg token
  | .broker, .logout => logout v.cfg
  | .admin, .login token now => adminLogin v.cfg token now
  | .admin, .logout => adminLogout v.cfg

/-- The jar after responses of the API. -/
def jarAfter (host : String) (jar : Jar) (vs : List Visit) : Jar :=
  vs.foldl (fun jar v => v.cookies.foldl (receive host) jar) jar

/-- The logins and logouts at a console. -/
def eventsAt (console : Console) (vs : List Visit) : List SignEvent :=
  (vs.filter fun v => v.console = console).map (·.event)

/-- The session a browser is in: the token of its last login, unless it has
logged out since. -/
def session (es : List SignEvent) : Option String :=
  match es.getLast? with
  | some (.login token _) => some token
  | _ => none

/-- Some of them is a login. -/
def loggedIn (es : List SignEvent) : Bool := es.any fun e =>
  match e with
  | .login _ _ => true
  | .logout => false

/-- The domain is configured once, and stays. -/
structure Switched (dom : String) (before after : List Visit) : Prop where
  before : ∀ v ∈ before, cookieDomainOpt v.cfg = none
  after : ∀ v ∈ after, cookieDomainOpt v.cfg = some dom

/-- The values of the cookies of one name. -/
structure Held where
  hostRoot : Option String
  domainRoot : Option String
  hostNarrow : Option String
  domainNarrow : Option String

/-- Their keys. -/
def Held.at (A : Held) (name host D : String) (key : CookieKey) : Option String :=
  if key = ⟨name, .single host, "/"⟩ then A.hostRoot
  else if key = ⟨name, .below D, "/"⟩ then A.domainRoot
  else if key = ⟨name, .single host, NARROW_PATH⟩ then A.hostNarrow
  else if key = ⟨name, .below D, NARROW_PATH⟩ then A.domainNarrow
  else none

/-- These are the cookies of the name in a jar. -/
def Holds (name host D : String) (jar : Jar) (A : Held) : Prop :=
  ∀ c : Cookie, c.key.name = name → (c ∈ jar ↔ A.at name host D c.key = some c.value)

/-- What a response makes of them. -/
def Held.next (console : Console) (switched : Bool) (A : Held) : SignEvent → Held
  | .login token _ =>
    match console, switched with
    | .broker, false => { A with hostRoot := some token }
    | .broker, true => { A with hostRoot := none, domainRoot := some token }
    | .admin, false => { A with hostRoot := some token, hostNarrow := none }
    | .admin, true => { A with hostRoot := none, domainRoot := some token, domainNarrow := none }
  | .logout =>
    match console, switched with
    | .broker, false => { A with hostRoot := none }
    | .broker, true => { A with hostRoot := none, domainRoot := none }
    | .admin, false => { A with hostRoot := none, hostNarrow := none }
    | .admin, true => { A with domainRoot := none, domainNarrow := none }

/-- What logins and logouts make of them. -/
def Held.after (console : Console) (switched : Bool) (A : Held) (es : List SignEvent) : Held :=
  es.foldl (Held.next console switched) A

section Cookies

variable {name host D : String} {jar : Jar} {A : Held}

theorem holds_other {sc : SetCookie} (hname : sc.name ≠ name) (h : Holds name host D jar A) :
    Holds name host D (receive host jar sc) A := by
  intro c hc
  cases hscope : scopeOf host sc.domain with
  | none =>
    rw [receive, hscope]
    exact h c hc
  | some scope =>
    have hkey : c.key ≠ ⟨sc.name, scope, sc.path⟩ := by
      rintro hkey
      rw [hkey] at hc
      exact hname hc
    rw [mem_receive hscope]
    simp [hkey, h c hc]

/-- A response replaces the cookie under its key. -/
theorem holds_receive {sc : SetCookie} (scope : Scope) {B : Held} (hscope : scopeOf host sc.domain = some scope)
    (hB : ∀ key, B.at name host D key =
      if key = ⟨sc.name, scope, sc.path⟩ then sc.value else A.at name host D key)
    (h : Holds name host D jar A) : Holds name host D (receive host jar sc) B := by
  intro c hc
  rw [mem_receive hscope, hB]
  by_cases hkey : c.key = ⟨sc.name, scope, sc.path⟩
  · simp [hkey]
  · simp [hkey, h c hc]

theorem narrow_ne : "/" ≠ NARROW_PATH := by decide

theorem at_hostRoot (v : Option String) (key : CookieKey) : ({ A with hostRoot := v } : Held).at name host D key =
    if key = ⟨name, .single host, "/"⟩ then v else A.at name host D key := by
  unfold Held.at
  split <;> rfl

theorem at_domainRoot (v : Option String) (key : CookieKey) :
    ({ A with domainRoot := v } : Held).at name host D key =
      if key = ⟨name, .below D, "/"⟩ then v else A.at name host D key := by
  by_cases hkey : key = ⟨name, .below D, "/"⟩
  · simp [Held.at, hkey]
  · simp [Held.at, hkey]

theorem at_hostNarrow (v : Option String) (key : CookieKey) :
    ({ A with hostNarrow := v } : Held).at name host D key =
      if key = ⟨name, .single host, NARROW_PATH⟩ then v else A.at name host D key := by
  by_cases hkey : key = ⟨name, .single host, NARROW_PATH⟩
  · simp [Held.at, hkey, narrow_ne.symm]
  · simp [Held.at, hkey]

theorem at_domainNarrow (v : Option String) (key : CookieKey) :
    ({ A with domainNarrow := v } : Held).at name host D key =
      if key = ⟨name, .below D, NARROW_PATH⟩ then v else A.at name host D key := by
  by_cases hkey : key = ⟨name, .below D, NARROW_PATH⟩
  · simp [Held.at, hkey, narrow_ne.symm]
  · simp [Held.at, hkey]

/-- Responses with other names. -/
theorem holds_others {scs : List SetCookie} (hnames : ∀ sc ∈ scs, sc.name ≠ name)
    (h : Holds name host D jar A) : Holds name host D (scs.foldl (receive host) jar) A := by
  induction scs generalizing jar with
  | nil => exact h
  | cons sc scs ih =>
    rw [List.foldl_cons]
    exact ih (fun x hx => hnames x (List.mem_cons_of_mem sc hx)) (holds_other (hnames sc List.mem_cons_self) h)

variable {dom : String}

/-- A cookie at the root, for the host. -/
theorem holds_hostRoot (value : Option String) (h : Holds name host D jar A) :
    Holds name host D (receive host jar ⟨name, value, none, "/"⟩) { A with hostRoot := value } :=
  holds_receive (.single host) rfl (at_hostRoot value) h

/-- A cookie at the root, for the domain. -/
theorem holds_domainRoot (value : Option String) (hdom : scopeOf host (some dom) = some (.below D))
    (h : Holds name host D jar A) :
    Holds name host D (receive host jar ⟨name, value, some dom, "/"⟩) { A with domainRoot := value } :=
  holds_receive (.below D) hdom (at_domainRoot value) h

/-- A cookie at the narrow path, for the host. -/
theorem holds_hostNarrow (value : Option String) (h : Holds name host D jar A) :
    Holds name host D (receive host jar ⟨name, value, none, NARROW_PATH⟩) { A with hostNarrow := value } :=
  holds_receive (.single host) rfl (at_hostNarrow value) h

/-- A cookie at the narrow path, for the domain. -/
theorem holds_domainNarrow (value : Option String) (hdom : scopeOf host (some dom) = some (.below D))
    (h : Holds name host D jar A) :
    Holds name host D (receive host jar ⟨name, value, some dom, NARROW_PATH⟩)
      { A with domainNarrow := value } :=
  holds_receive (.below D) hdom (at_domainNarrow value) h

theorem activity_ne : ADMIN_ACTIVITY_COOKIE ≠ ADMIN_COOKIE := by decide

theorem activity_other (value domain : Option String) (h : Holds ADMIN_COOKIE host D jar A) :
    Holds ADMIN_COOKIE host D (receive host jar ⟨ADMIN_ACTIVITY_COOKIE, value, domain, "/"⟩) A :=
  holds_other activity_ne h

/-- A login or a logout at the console while no domain is configured. -/
theorem holds_before {console : Console} {cfg : CookieConfig} {event : SignEvent}
    (hcfg : cookieDomainOpt cfg = none) (h : Holds console.cookie host D jar A) :
    Holds console.cookie host D ((Visit.mk console cfg event).cookies.foldl (receive host) jar)
      (A.next console false event) := by
  cases console with
  | broker =>
    cases event with
    | login token now =>
      have hcookies : (Visit.mk .broker cfg (.login token now)).cookies = [setCookie LP_ACCESS token none] := by
        simp [Visit.cookies, login, hcfg]
      rw [hcookies]
      exact holds_hostRoot (some token) h
    | logout =>
      have hcookies : (Visit.mk .broker cfg .logout).cookies = [clearCookie LP_ACCESS "/" none] := by
        simp [Visit.cookies, logout, hcfg]
      rw [hcookies]
      exact holds_hostRoot none h
  | admin =>
    cases event with
    | login token now =>
      have hcookies : (Visit.mk .admin cfg (.login token now)).cookies =
          [clearCookie ADMIN_COOKIE NARROW_PATH none, setCookie ADMIN_COOKIE token none,
            setCookie ADMIN_ACTIVITY_COOKIE now none] := by
        simp [Visit.cookies, adminLogin, hcfg]
      rw [hcookies]
      exact activity_other (some now) none (holds_hostRoot (some token) (holds_hostNarrow none h))
    | logout =>
      have hcookies : (Visit.mk .admin cfg .logout).cookies =
          [clearCookie ADMIN_COOKIE "/" none, clearCookie ADMIN_COOKIE NARROW_PATH none,
            clearCookie ADMIN_ACTIVITY_COOKIE "/" none] := by
        simp [Visit.cookies, adminLogout, hcfg]
      rw [hcookies]
      exact activity_other none none (holds_hostNarrow none (holds_hostRoot none h))

/-- A login or a logout at the console once a domain is configured. -/
theorem holds_after {console : Console} {cfg : CookieConfig} {event : SignEvent}
    (hdom : scopeOf host (some dom) = some (.below D)) (hcfg : cookieDomainOpt cfg = some dom)
    (h : Holds console.cookie host D jar A) :
    Holds console.cookie host D ((Visit.mk console cfg event).cookies.foldl (receive host) jar)
      (A.next console true event) := by
  cases console with
  | broker =>
    cases event with
    | login token now =>
      have hcookies : (Visit.mk .broker cfg (.login token now)).cookies =
          [clearCookie LP_ACCESS "/" none, setCookie LP_ACCESS token (some dom)] := by
        simp [Visit.cookies, login, hcfg]
      rw [hcookies]
      exact holds_domainRoot (some token) hdom (holds_hostRoot none h)
    | logout =>
      have hcookies : (Visit.mk .broker cfg .logout).cookies =
          [clearCookie LP_ACCESS "/" (some dom), clearCookie LP_ACCESS "/" none] := by
        simp [Visit.cookies, logout, hcfg]
      rw [hcookies]
      exact holds_hostRoot none (holds_domainRoot none hdom h)
  | admin =>
    cases event with
    | login token now =>
      have hcookies : (Visit.mk .admin cfg (.login token now)).cookies =
          [clearCookie ADMIN_COOKIE NARROW_PATH (some dom), clearCookie ADMIN_COOKIE "/" none,
            clearCookie ADMIN_ACTIVITY_COOKIE "/" none, setCookie ADMIN_COOKIE token (some dom),
            setCookie ADMIN_ACTIVITY_COOKIE now (some dom)] := by
        simp [Visit.cookies, adminLogin, hcfg]
      rw [hcookies]
      exact activity_other (some now) (some dom) (holds_domainRoot (some token) hdom (activity_other none none (holds_hostRoot none
        (holds_domainNarrow none hdom h))))
    | logout =>
      have hcookies : (Visit.mk .admin cfg .logout).cookies =
          [clearCookie ADMIN_COOKIE "/" (some dom), clearCookie ADMIN_COOKIE NARROW_PATH (some dom),
            clearCookie ADMIN_ACTIVITY_COOKIE "/" (some dom)] := by
        simp [Visit.cookies, adminLogout, hcfg]
      rw [hcookies]
      exact activity_other none (some dom) (holds_domainNarrow none hdom (holds_domainRoot none hdom h))

/-- The names of the cookies of a response. -/
theorem visit_names (v : Visit) : ∀ sc ∈ v.cookies,
    sc.name = v.console.cookie ∨ (v.console = .admin ∧ sc.name = ADMIN_ACTIVITY_COOKIE) := by
  obtain ⟨console, cfg, event⟩ := v
  cases hcfg : cookieDomainOpt cfg <;> cases console <;> cases event <;>
    simp [Visit.cookies, login, logout, adminLogin, adminLogout, hcfg, setCookie, clearCookie,
      Console.cookie]

theorem cookies_ne : LP_ACCESS ≠ ADMIN_COOKIE ∧ ADMIN_ACTIVITY_COOKIE ≠ LP_ACCESS := by decide

/-- A login or a logout at the other console. -/
theorem holds_elsewhere {console : Console} {v : Visit} (hconsole : v.console ≠ console)
    (h : Holds console.cookie host D jar A) :
    Holds console.cookie host D (v.cookies.foldl (receive host) jar) A := by
  refine holds_others (fun sc hsc hname => ?_) h
  rcases visit_names v sc hsc with hcookie | ⟨hadmin, hactivity⟩
  · rw [hcookie] at hname
    cases console <;> cases hother : v.console <;> rw [hother] at hname hconsole
    · exact hconsole rfl
    · exact cookies_ne.1 hname.symm
    · exact cookies_ne.1 hname
    · exact hconsole rfl
  · rw [hactivity] at hname
    cases console with
    | broker => exact cookies_ne.2 hname
    | admin => exact hconsole hadmin

/-- All visits, of one kind. -/
theorem holds_visits {console : Console} {switched : Bool} {vs : List Visit}
    (hone : ∀ v ∈ vs, v.console = console → ∀ jar A, Holds console.cookie host D jar A →
      Holds console.cookie host D (v.cookies.foldl (receive host) jar) (A.next console switched v.event))
    (h : Holds console.cookie host D jar A) :
    Holds console.cookie host D (jarAfter host jar vs) (A.after console switched (eventsAt console vs)) := by
  induction vs generalizing jar A with
  | nil => exact h
  | cons v vs ih =>
    have hrest := fun x hx => hone x (List.mem_cons_of_mem v hx)
    rw [jarAfter, List.foldl_cons]
    by_cases hconsole : v.console = console
    · rw [eventsAt, List.filter_cons_of_pos (by simpa using hconsole), List.map_cons, Held.after,
        List.foldl_cons]
      exact ih hrest (hone v List.mem_cons_self hconsole jar A h)
    · rw [eventsAt, List.filter_cons_of_neg (by simpa using hconsole)]
      exact ih hrest (holds_elsewhere hconsole h)

/-- All visits, before and after the domain is configured. -/
theorem holds_switched {console : Console} {before after : List Visit}
    (hdom : scopeOf host (some dom) = some (.below D)) (hswitched : Switched dom before after)
    (h : Holds console.cookie host D jar A) :
    Holds console.cookie host D (jarAfter host jar (before ++ after))
      ((A.after console false (eventsAt console before)).after console true (eventsAt console after)) := by
  rw [jarAfter, List.foldl_append]
  refine holds_visits (fun v hv hconsole jar A h => ?_) (holds_visits (fun v hv hconsole jar A h => ?_) h)
  · obtain ⟨_, cfg, event⟩ := v
    obtain rfl := hconsole
    exact holds_after hdom (hswitched.after _ hv) h
  · obtain ⟨_, cfg, event⟩ := v
    obtain rfl := hconsole
    exact holds_before (hswitched.before _ hv) h

theorem keyed_jarAfter {vs : List Visit} (h : Keyed jar) : Keyed (jarAfter host jar vs) := by
  have hall : ∀ {scs : List SetCookie} {jar : Jar}, Keyed jar → Keyed (scs.foldl (receive host) jar) := by
    intro scs
    induction scs with
    | nil => exact fun h => h
    | cons sc scs ih => exact fun h => ih (keyed_receive h)
  induction vs generalizing jar with
  | nil => exact h
  | cons v vs ih => exact ih (hall h)

end Cookies

section Sessions

variable {es : List SignEvent} {r hn dn : Option String}

theorem session_snoc (e : SignEvent) : session (es ++ [e]) =
    match e with
    | .login token _ => some token
    | .logout => none := by
  cases e <;> simp [session]

/-- What came last counts. -/
theorem session_append {fs : List SignEvent} :
    session (es ++ fs) = if fs = [] then session es else session fs := by
  by_cases hfs : fs = []
  · rw [if_pos hfs, hfs, List.append_nil]
  · rw [if_neg hfs, session, session, List.getLast?_append_of_ne_nil _ hfs]

theorem eventsAt_append {console : Console} {vs us : List Visit} :
    eventsAt console (vs ++ us) = eventsAt console vs ++ eventsAt console us := by
  rw [eventsAt, List.filter_append, List.map_append]
  rfl

theorem loggedIn_snoc (e : SignEvent) : loggedIn (es ++ [e]) = (loggedIn es || loggedIn [e]) := by
  simp [loggedIn]

/-- Logouts alone are no session. -/
theorem session_logouts (h : loggedIn es = false) : session es = none := by
  induction es using List.reverseRecOn with
  | nil => rfl
  | append_singleton es e ih =>
    rw [session_snoc]
    cases e with
    | login token now => simp [loggedIn] at h
    | logout => rfl

theorem after_snoc {console : Console} {switched : Bool} {A : Held} (e : SignEvent) :
    A.after console switched (es ++ [e]) = (A.after console switched es).next console switched e := by
  rw [Held.after, List.foldl_append]
  rfl

theorem broker_before : (Held.mk none none hn dn).after .broker false es = ⟨session es, none, hn, dn⟩ := by
  induction es using List.reverseRecOn with
  | nil => rfl
  | append_singleton es e ih =>
    rw [after_snoc, ih, session_snoc]
    cases e <;> rfl

theorem broker_after : (Held.mk r none hn dn).after .broker true es =
    ⟨if es = [] then r else none, session es, hn, dn⟩ := by
  induction es using List.reverseRecOn with
  | nil => rfl
  | append_singleton es e ih =>
    have hne : es ++ [e] ≠ [] := by simp
    rw [after_snoc, ih, session_snoc, if_neg hne]
    cases e <;> rfl

theorem admin_before : (Held.mk none none hn dn).after .admin false es =
    ⟨session es, none, if es = [] then hn else none, dn⟩ := by
  induction es using List.reverseRecOn with
  | nil => rfl
  | append_singleton es e ih =>
    have hne : es ++ [e] ≠ [] := by simp
    rw [after_snoc, ih, session_snoc, if_neg hne]
    cases e <;> rfl

theorem admin_after : (Held.mk r none hn dn).after .admin true es =
    ⟨if loggedIn es then none else r, session es, hn, if es = [] then dn else none⟩ := by
  induction es using List.reverseRecOn with
  | nil => rfl
  | append_singleton es e ih =>
    have hne : es ++ [e] ≠ [] := by simp
    rw [after_snoc, ih, session_snoc, loggedIn_snoc, if_neg hne]
    cases e with
    | login token now => simp [Held.next, loggedIn]
    | logout => simp [Held.next, loggedIn]

end Sessions

section Reads

variable {name host D path : String} {jar : Jar} {A : Held}

/-- A path at or below the narrow one is below the root. -/
theorem onPath_root {path : String} (h : onPath NARROW_PATH path = true) : onPath "/" path = true := by
  rw [onPath, Bool.and_eq_true] at h
  obtain ⟨rest, hrest⟩ := List.isPrefixOf_iff_prefix.mp h.1
  have hroot : ['/'] <+: path.toList := ⟨"api/v1/admin".toList ++ rest, hrest⟩
  simp [onPath, hroot]

/-- Where a value of the name is. -/
theorem at_some {key : CookieKey} {v : String} (h : A.at name host D key = some v) :
    (key = ⟨name, .single host, "/"⟩ ∧ A.hostRoot = some v) ∨
    (key = ⟨name, .below D, "/"⟩ ∧ A.domainRoot = some v) ∨
    (key = ⟨name, .single host, NARROW_PATH⟩ ∧ A.hostNarrow = some v) ∨
    (key = ⟨name, .below D, NARROW_PATH⟩ ∧ A.domainNarrow = some v) := by
  unfold Held.at at h
  split at h
  · exact Or.inl ⟨‹_›, h⟩
  · split at h
    · exact Or.inr (Or.inl ⟨‹_›, h⟩)
    · split at h
      · exact Or.inr (Or.inr (Or.inl ⟨‹_›, h⟩))
      · split at h
        · exact Or.inr (Or.inr (Or.inr ⟨‹_›, h⟩))
        · simp at h

/-- The value with the longest path is read. -/
theorem read_held {app v : String} (scope : Scope) (at_ : String) (hjar : Keyed jar)
    (h : Holds name host D jar A) (hat : A.at name host D ⟨name, scope, at_⟩ = some v)
    (hgoes : (CookieKey.mk name scope at_).goes app path = true)
    (hlongest : ∀ key v', A.at name host D key = some v' → key.goes app path = true →
      key ≠ ⟨name, scope, at_⟩ → key.path.toList.length < at_.toList.length) :
    read jar app path name = some v := by
  have hc : (⟨⟨name, scope, at_⟩, v⟩ : Cookie) ∈ jar := (h _ rfl).mpr hat
  exact read_longest hjar hc hgoes fun d hd hname hdgoes hne =>
    hlongest d.key d.value ((h d hname).mp hd) hdgoes hne

theorem narrow_longer : "/".toList.length < NARROW_PATH.toList.length := by decide

/-- At most one cookie of a path, and a request that all of them go with: the
API reads the narrow one first. -/
theorem read_api (hjar : Keyed jar) (h : Holds name host D jar A) (hcovers : covers D host = true)
    (hroot : onPath "/" path = true)
    (hpath : (A.hostNarrow = none ∧ A.domainNarrow = none) ∨ onPath NARROW_PATH path = true)
    (hroots : A.hostRoot = none ∨ A.domainRoot = none)
    (hnarrows : A.hostNarrow = none ∨ A.domainNarrow = none) :
    read jar host path name =
      (A.hostNarrow.or A.domainNarrow).or (A.hostRoot.or A.domainRoot) := by
  have hself : (Scope.single host).covers host = true := decide_eq_true rfl
  have hbelow : (Scope.below D).covers host = true := hcovers
  cases hhn : A.hostNarrow with
  | some v =>
    have hdn : A.domainNarrow = none := by simpa [hhn] using hnarrows
    have hnarrow : onPath NARROW_PATH path = true := by simpa [hhn] using hpath
    refine read_held (.single host) NARROW_PATH hjar h (by simp [Held.at, narrow_ne.symm, hhn])
      (by rw [CookieKey.goes, hself, hnarrow]; rfl) fun key v' hat _ hne => ?_
    rcases at_some hat with ⟨rfl, -⟩ | ⟨rfl, -⟩ | ⟨rfl, -⟩ | ⟨-, hv⟩
    · exact narrow_longer
    · exact narrow_longer
    · exact absurd rfl hne
    · simp [hdn] at hv
  | none =>
    cases hdn : A.domainNarrow with
    | some v =>
      have hnarrow : onPath NARROW_PATH path = true := by simpa [hdn] using hpath
      refine read_held (.below D) NARROW_PATH hjar h (by simp [Held.at, narrow_ne.symm, hdn])
        (by rw [CookieKey.goes, hbelow, hnarrow]; rfl) fun key v' hat _ hne => ?_
      rcases at_some hat with ⟨rfl, -⟩ | ⟨rfl, -⟩ | ⟨-, hv⟩ | ⟨rfl, -⟩
      · exact narrow_longer
      · exact narrow_longer
      · simp [hhn] at hv
      · exact absurd rfl hne
    | none =>
      cases hhr : A.hostRoot with
      | some v =>
        have hdr : A.domainRoot = none := by simpa [hhr] using hroots
        refine read_held (.single host) "/" hjar h (by simp [Held.at, hhr])
          (by rw [CookieKey.goes, hself, hroot]; rfl) fun key v' hat _ hne => ?_
        rcases at_some hat with ⟨rfl, -⟩ | ⟨-, hv⟩ | ⟨-, hv⟩ | ⟨-, hv⟩
        · exact absurd rfl hne
        · simp [hdr] at hv
        · simp [hhn] at hv
        · simp [hdn] at hv
      | none =>
        cases hdr : A.domainRoot with
        | some v =>
          refine read_held (.below D) "/" hjar h (by simp [Held.at, hdr])
            (by rw [CookieKey.goes, hbelow, hroot]; rfl) fun key v' hat _ hne => ?_
          rcases at_some hat with ⟨-, hv⟩ | ⟨rfl, -⟩ | ⟨-, hv⟩ | ⟨-, hv⟩
          · simp [hhr] at hv
          · exact absurd rfl hne
          · simp [hhn] at hv
          · simp [hdn] at hv
        | none =>
          refine read_none fun c hc hname => ?_
          rcases at_some ((h c hname).mp hc) with ⟨-, hv⟩ | ⟨-, hv⟩ | ⟨-, hv⟩ | ⟨-, hv⟩ <;>
            simp [hhr, hdr, hhn, hdn] at hv

/-- An application on another host below the domain reads the cookie of the
domain. -/
theorem read_app {app : String} (hjar : Keyed jar) (h : Holds name host D jar A) (happ : app ≠ host)
    (hcovers : covers D app = true) (hroot : onPath "/" path = true) (hpath : onPath NARROW_PATH path = false) :
    read jar app path name = A.domainRoot := by
  have hother : (Scope.single host).covers app = false := decide_eq_false happ.symm
  have hbelow : (Scope.below D).covers app = true := hcovers
  have hgoing : ∀ key v, A.at name host D key = some v → key.goes app path = true →
      key = ⟨name, .below D, "/"⟩ ∧ A.domainRoot = some v := by
    intro key v hat hgoes
    rcases at_some hat with ⟨rfl, -⟩ | hkey | ⟨rfl, -⟩ | ⟨rfl, -⟩
    · simp [CookieKey.goes, hother] at hgoes
    · exact hkey
    · simp [CookieKey.goes, hother] at hgoes
    · simp [CookieKey.goes, hpath] at hgoes
  cases hdr : A.domainRoot with
  | some v =>
    exact read_held (.below D) "/" hjar h (by simp [Held.at, hdr])
      (by rw [CookieKey.goes, hbelow, hroot]; rfl)
      fun key v' hat hgoes hne => absurd (hgoing key v' hat hgoes).1 hne
  | none =>
    refine read_none fun c hc hname => ?_
    by_contra hgoes
    have hv := (hgoing c.key c.value ((h c hname).mp hc) (by simpa using hgoes)).2
    simp [hdr] at hv

end Reads

section Runs

variable {host dom D path : String} {jar : Jar} {before after : List Visit}

/-- A browser without a cookie of brokers, over logins and logouts at both
consoles: the API reads the token of the broker's session, before a domain is
configured and after. The applications on other hosts below the domain read it
for the sessions since then. -/
theorem broker_cookie_session (hdom : scopeOf host (some dom) = some (.below D)) (hcovers : covers D host = true)
    (hjar : Keyed jar) (hnone : ∀ c ∈ jar, c.key.name ≠ LP_ACCESS) (hswitched : Switched dom before after)
    (hpath : onPath "/" path = true) :
    read (jarAfter host jar (before ++ after)) host path LP_ACCESS =
      session (eventsAt .broker (before ++ after)) ∧
    ∀ app, app ≠ host → covers D app = true → onPath NARROW_PATH path = false →
      read (jarAfter host jar (before ++ after)) app path LP_ACCESS = session (eventsAt .broker after) := by
  have hstart : Holds Console.broker.cookie host D jar ⟨none, none, none, none⟩ := fun c hc =>
    ⟨fun hmem => absurd hc (hnone c hmem), fun hat => by
      rcases at_some hat with ⟨-, hv⟩ | ⟨-, hv⟩ | ⟨-, hv⟩ | ⟨-, hv⟩ <;> simp at hv⟩
  have hheld := holds_switched hdom hswitched hstart
  rw [broker_before, broker_after] at hheld
  have hkeyed : Keyed (jarAfter host jar (before ++ after)) := keyed_jarAfter hjar
  constructor
  · have hroots : (if eventsAt .broker after = [] then session (eventsAt .broker before) else none) = none ∨
        session (eventsAt .broker after) = none := by
      by_cases hafter : eventsAt .broker after = []
      · exact Or.inr (by rw [hafter]; rfl)
      · exact Or.inl (if_neg hafter)
    have hread := read_api hkeyed hheld hcovers hpath (Or.inl ⟨rfl, rfl⟩) hroots (Or.inl rfl)
    rw [Console.cookie] at hread
    rw [hread, eventsAt_append, session_append]
    by_cases hafter : eventsAt .broker after = []
    · simp [hafter, session]
    · simp [hafter]
  · intro app happ hcovered hnarrow
    exact read_app hkeyed hheld happ hcovered hpath hnarrow

/-- A cookie of an earlier release, unless a login or a logout has removed it. -/
def stale (old : Option Cookie) (before after : List Visit) : Option Cookie :=
  old.filter fun c =>
    match c.key.scope with
    | .single _ => (eventsAt .admin before).isEmpty
    | .below _ => (eventsAt .admin after).isEmpty

/-- A jar with at most one cookie of the platform's users, of an earlier
release. -/
structure Outdated (host D : String) (jar : Jar) (old : Option Cookie) : Prop where
  only : ∀ c, c.key.name = ADMIN_COOKIE → (c ∈ jar ↔ old = some c)
  narrow : ∀ c ∈ old, c.key = ⟨ADMIN_COOKIE, .single host, NARROW_PATH⟩ ∨
    c.key = ⟨ADMIN_COOKIE, .below D, NARROW_PATH⟩

theorem at_empty {name : String} (key : CookieKey) :
    (Held.mk none none none none).at name host D key = none := by
  unfold Held.at
  split_ifs <;> rfl

/-- A single cookie. -/
theorem single_cookie {key k : CookieKey} {value v : String} :
    some (Cookie.mk key value) = some (Cookie.mk k v) ↔ (if k = key then some value else none) = some v := by
  by_cases hkey : k = key
  · simp [hkey]
  · simp [hkey, Ne.symm hkey]

/-- The values in such a jar. -/
theorem holds_outdated (before after : List Visit) {old : Option Cookie} (h : Outdated host D jar old) : ∃ hn dn,
    Holds ADMIN_COOKIE host D jar ⟨none, none, hn, dn⟩ ∧ (hn = none ∨ dn = none) ∧
    (stale old before after).map (·.value) = (if eventsAt .admin before = [] then hn else none).or
      (if eventsAt .admin after = [] then dn else none) := by
  cases hold : old with
  | none =>
    refine ⟨none, none, fun c hc => ?_, Or.inl rfl, by simp [stale]⟩
    rw [h.only c hc, hold]
    simp [Held.at]
  | some c =>
    obtain ⟨key, value⟩ := c
    have hkey := h.narrow _ hold
    simp only at hkey
    rcases hkey with rfl | rfl
    · refine ⟨some value, none, fun d hd => ?_, Or.inr rfl, ?_⟩
      · rw [h.only d hd, hold, at_hostNarrow (A := ⟨none, none, none, none⟩), at_empty]
        exact single_cookie
      · by_cases hbefore : eventsAt .admin before = [] <;> simp [stale, Option.filter, hbefore]
    · refine ⟨none, some value, fun d hd => ?_, Or.inl rfl, ?_⟩
      · rw [h.only d hd, hold, at_domainNarrow (A := ⟨none, none, none, none⟩), at_empty]
        exact single_cookie
      · by_cases hafter : eventsAt .admin after = [] <;> simp [stale, Option.filter, hafter]

/-- A browser with at most one cookie of the platform's users, of an earlier
release. While that cookie is there, the API reads it. Else it reads the token
of the session from before the domain was configured until there is a login
again, whether or not there has been a logout, and the token of the session from
then on. -/
theorem admin_cookie_session (hdom : scopeOf host (some dom) = some (.below D)) (hcovers : covers D host = true)
    (hjar : Keyed jar) {old : Option Cookie} (hold : Outdated host D jar old)
    (hswitched : Switched dom before after) (hpath : onPath NARROW_PATH path = true) :
    read (jarAfter host jar (before ++ after)) host path ADMIN_COOKIE =
      ((stale old before after).map (·.value)).or
        (if loggedIn (eventsAt .admin after) then session (eventsAt .admin after)
        else session (eventsAt .admin before)) ∧
    ∀ app page, app ≠ host → covers D app = true → onPath "/" page = true →
      onPath NARROW_PATH page = false →
      read (jarAfter host jar (before ++ after)) app page ADMIN_COOKIE = session (eventsAt .admin after) := by
  obtain ⟨hn, dn, hstart, hone, hstale⟩ := holds_outdated before after hold
  have hstart : Holds Console.admin.cookie host D jar ⟨none, none, hn, dn⟩ := hstart
  have hheld := holds_switched hdom hswitched hstart
  rw [admin_before, admin_after] at hheld
  have hkeyed : Keyed (jarAfter host jar (before ++ after)) := keyed_jarAfter hjar
  constructor
  · have hroots : (if loggedIn (eventsAt .admin after) then none else session (eventsAt .admin before)) = none ∨
        session (eventsAt .admin after) = none := by
      by_cases hlogin : loggedIn (eventsAt .admin after) = true
      · exact Or.inl (if_pos hlogin)
      · exact Or.inr (session_logouts (by simpa using hlogin))
    have hnarrows : (if eventsAt .admin before = [] then hn else none) = none ∨
        (if eventsAt .admin after = [] then dn else none) = none := by
      rcases hone with rfl | rfl <;> simp
    have hread := read_api hkeyed hheld hcovers (onPath_root hpath) (Or.inr hpath) hroots hnarrows
    rw [Console.cookie] at hread
    rw [hread, hstale]
    by_cases hlogin : loggedIn (eventsAt .admin after) = true
    · simp [hlogin]
    · simp [hlogin, session_logouts (by simpa using hlogin)]
  · intro app page happ hcovered hroot hnarrow
    exact read_app hkeyed hheld happ hcovered hroot hnarrow

end Runs

/-- No domain yet. -/
def hostOnly : CookieConfig := ⟨none, some " "⟩

/-- The domain of all hosts. -/
def sharedDomain : CookieConfig := ⟨some ".lp.test", none⟩

theorem api_scope : scopeOf "api.lp.test" (some ".lp.test") = some (.below "lp.test") := by decide

theorem api_covered : covers "lp.test" "api.lp.test" = true := by decide

/-- A login before the domain is configured. -/
def firstVisit (console : Console) : List Visit := [⟨console, hostOnly, .login "T1" "0"⟩]

/-- A logout afterwards. -/
def secondVisit (console : Console) : List Visit := [⟨console, sharedDomain, .logout⟩]

theorem switched_visits (console : Console) : Switched ".lp.test" (firstVisit console) (secondVisit console) := by
  cases console <;> exact ⟨by decide, by decide⟩

theorem broker_signed_out :
    read (jarAfter "api.lp.test" [] (firstVisit .broker ++ secondVisit .broker)) "api.lp.test"
      "/api/v1/broker/trades" LP_ACCESS = none ∧
    read (jarAfter "api.lp.test" [] (firstVisit .broker ++ secondVisit .broker)) "trade.lp.test"
      "/api/v1/broker/trades" LP_ACCESS = none := by
  have hnone : ∀ c ∈ ([] : Jar), c.key.name ≠ LP_ACCESS := by simp
  have hkeyed : Keyed [] := List.nodup_nil
  have hpath : onPath "/" "/api/v1/broker/trades" = true := by decide
  obtain ⟨hapi, happ⟩ := broker_cookie_session api_scope api_covered hkeyed hnone
    (switched_visits .broker) hpath
  exact ⟨hapi, happ "trade.lp.test" (by decide) (by decide) (by decide)⟩

/-- A cookie of an earlier release. -/
def earlier : Cookie := ⟨⟨ADMIN_COOKIE, .below "lp.test", NARROW_PATH⟩, "T0"⟩

theorem admin_signed_out :
    read (jarAfter "api.lp.test" [earlier] (firstVisit .admin ++ secondVisit .admin)) "api.lp.test"
      "/api/v1/admin/approvals" ADMIN_COOKIE = some "T1" := by
  have hold : Outdated "api.lp.test" "lp.test" [earlier] (some earlier) :=
    ⟨fun c _ => by simp [eq_comm], fun c hc => Or.inr (by rw [← Option.some.inj hc, earlier])⟩
  have hkeyed : Keyed [earlier] := List.nodup_singleton _
  have hpath : onPath NARROW_PATH "/api/v1/admin/approvals" = true := by decide
  exact (admin_cookie_session api_scope api_covered hkeyed hold
    (switched_visits .admin) hpath).1

end LpPlatform.SessionCookies
