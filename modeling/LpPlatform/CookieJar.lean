import Mathlib.Data.List.Basic
import Mathlib.Data.List.Nodup
import LpPlatform.StableSorts

/-!
# The cookies of a browser

A cookie is known by its name, its path and the hosts it goes to: the host that
set it, or a domain with everything below it. A response sets a cookie, in
place of one with the same key, or removes one. A request carries the cookies
for its host and path, longer paths first and older cookies first. A server
reads the first one of a name.
-/

namespace LpPlatform.CookieJar

open StableSorts

/-- The hosts a cookie goes to. -/
inductive Scope where
  | single (host : String)
  | below (domain : String)
  deriving DecidableEq

/-- What a cookie is known by. -/
structure CookieKey where
  name : String
  scope : Scope
  path : String
  deriving DecidableEq

/-- A cookie. -/
structure Cookie where
  key : CookieKey
  value : String
  deriving DecidableEq

/-- Cookies, the oldest first. -/
abbrev Jar := List Cookie

/-- A cookie of a response; without a value it has expired. -/
structure SetCookie where
  name : String
  value : Option String
  domain : Option String
  path : String

/-- The host is the domain or below it. -/
def covers (domain host : String) : Bool :=
  host = domain || ('.' :: domain.toList).isSuffixOf host.toList

/-- The name of a domain, without a leading dot. -/
def domainName (text : String) : String :=
  String.ofList ((match text.toList with
    | '.' :: rest => rest
    | cs => cs).map Char.toLower)

/-- The hosts that a response of a host may set a cookie for. -/
def scopeOf (host : String) : Option String → Option Scope
  | none => some (.single host)
  | some text =>
    if domainName text = "" then some (.single host)
    else if covers (domainName text) host then some (.below (domainName text))
    else none

/-- Set a cookie, in place of one with its key. -/
def put (c : Cookie) (jar : Jar) : Jar :=
  if jar.any fun d => d.key = c.key then jar.map fun d => if d.key = c.key then c else d
  else jar ++ [c]

/-- Remove a cookie. -/
def drop (key : CookieKey) (jar : Jar) : Jar := jar.filter fun d => d.key ≠ key

/-- The jar after a response of a host. -/
def receive (host : String) (jar : Jar) (sc : SetCookie) : Jar :=
  match scopeOf host sc.domain with
  | none => jar
  | some scope =>
    match sc.value with
    | none => drop ⟨sc.name, scope, sc.path⟩ jar
    | some value => put ⟨⟨sc.name, scope, sc.path⟩, value⟩ jar

/-- The path of a request is at or below the path of a cookie. -/
def onPath (path request : String) : Bool :=
  path.toList.isPrefixOf request.toList &&
    (request = path || path.toList.getLast? = some '/' ||
      (request.toList.drop path.toList.length).head? = some '/')

/-- The cookie goes to the host. -/
def Scope.covers : Scope → String → Bool
  | .single name, host => name = host
  | .below domain, host => CookieJar.covers domain host

/-- The cookie goes with a request. -/
def CookieKey.goes (key : CookieKey) (host path : String) : Bool :=
  key.scope.covers host && onPath key.path path

/-- The cookies of a request. -/
def sent (jar : Jar) (host path : String) : List Cookie :=
  (jar.filter fun c => c.key.goes host path).insertionSort fun a b =>
    b.key.path.toList.length ≤ a.key.path.toList.length

/-- What a server reads under a name. -/
def read (jar : Jar) (host path name : String) : Option String :=
  ((sent jar host path).find? fun c => c.key.name = name).map (·.value)

/-- No two cookies have the same key. -/
def Keyed (jar : Jar) : Prop := (jar.map (·.key)).Nodup

section Jars

variable {jar : Jar} {key : CookieKey} {c d : Cookie} {host path name : String}

theorem mem_drop : d ∈ drop key jar ↔ d ∈ jar ∧ d.key ≠ key := by
  simp [drop]

theorem mem_put : d ∈ put c jar ↔ d = c ∨ (d ∈ jar ∧ d.key ≠ c.key) := by
  by_cases hany : ∃ x ∈ jar, x.key = c.key
  · have hput : put c jar = jar.map fun x => if x.key = c.key then c else x :=
      if_pos (List.any_eq_true.mpr (hany.imp fun x hx => ⟨hx.1, decide_eq_true hx.2⟩))
    rw [hput, List.mem_map]
    constructor
    · rintro ⟨x, hx, rfl⟩
      by_cases hkey : x.key = c.key
      · exact Or.inl (if_pos hkey)
      · rw [if_neg hkey]
        exact Or.inr ⟨hx, hkey⟩
    · rintro (rfl | ⟨hd, hkey⟩)
      · obtain ⟨x, hx, hkey⟩ := hany
        exact ⟨x, hx, if_pos hkey⟩
      · exact ⟨d, hd, if_neg hkey⟩
  · have hput : put c jar = jar ++ [c] :=
      if_neg fun h => hany ((List.any_eq_true.mp h).imp fun x hx => ⟨hx.1, of_decide_eq_true hx.2⟩)
    rw [hput, List.mem_append, List.mem_singleton]
    constructor
    · rintro (hd | rfl)
      · exact Or.inr ⟨hd, fun hkey => hany ⟨d, hd, hkey⟩⟩
      · exact Or.inl rfl
    · rintro (rfl | ⟨hd, -⟩)
      · exact Or.inr rfl
      · exact Or.inl hd

theorem keyed_drop (h : Keyed jar) : Keyed (drop key jar) := h.sublist (List.filter_sublist.map _)

theorem keyed_put (h : Keyed jar) : Keyed (put c jar) := by
  rw [put]
  split
  · have hkeys : (jar.map fun d => if d.key = c.key then c else d).map (·.key) = jar.map (·.key) := by
      rw [List.map_map]
      refine List.map_congr_left fun d _ => ?_
      by_cases hd : d.key = c.key <;> simp [hd]
    rwa [Keyed, hkeys]
  · rename_i hnone
    rw [Keyed, List.map_append, List.map_singleton]
    refine h.append (List.nodup_singleton _) ?_
    rw [List.disjoint_singleton]
    intro hmem
    obtain ⟨d, hd, hkey⟩ := List.mem_map.mp hmem
    exact hnone (List.any_eq_true.mpr ⟨d, hd, decide_eq_true hkey⟩)

theorem keyed_receive {sc : SetCookie} (h : Keyed jar) : Keyed (receive host jar sc) := by
  unfold receive
  split
  · exact h
  · split
    · exact keyed_drop h
    · exact keyed_put h

/-- A response replaces what is under the key of its cookie. -/
theorem mem_receive {sc : SetCookie} {scope : Scope} (hscope : scopeOf host sc.domain = some scope) :
    d ∈ receive host jar sc ↔ (d.key = ⟨sc.name, scope, sc.path⟩ ∧ sc.value = some d.value) ∨
      (d ∈ jar ∧ d.key ≠ ⟨sc.name, scope, sc.path⟩) := by
  rw [receive, hscope]
  cases hvalue : sc.value with
  | none => simp [mem_drop]
  | some value =>
    simp only [mem_put, Option.some.injEq]
    refine or_congr_left ⟨?_, ?_⟩
    · rintro rfl
      exact ⟨rfl, rfl⟩
    · rintro ⟨hkey, rfl⟩
      rw [← hkey]

/-- The cookies of a name that go with a request, in the order they are sent
in. -/
theorem read_eq : read jar host path name =
    ((jar.filter fun c => c.key.goes host path && c.key.name = name).insertionSort fun a b =>
      b.key.path.toList.length ≤ a.key.path.toList.length).head?.map (·.value) := by
  have hsorted := filter_insertionSort
    (r := fun a b : Cookie => b.key.path.toList.length ≤ a.key.path.toList.length)
    (fun a b => Nat.le_total _ _) (fun a b c hab hbc => Nat.le_trans hbc hab)
    (fun c => decide (c.key.name = name)) (jar.filter fun c => c.key.goes host path)
  rw [read, ← List.head?_filter, sent, hsorted, List.filter_filter]
  simp only [Bool.and_comm]

/-- Nothing is read where no cookie of the name goes. -/
theorem read_none (h : ∀ c ∈ jar, c.key.name = name → c.key.goes host path = false) :
    read jar host path name = none := by
  have hnone : (jar.filter fun c => c.key.goes host path && c.key.name = name) = [] :=
    List.filter_eq_nil_iff.mpr fun c hc hboth => by
      obtain ⟨hgoes, hname⟩ := Bool.and_eq_true_iff.mp hboth
      rw [h c hc (of_decide_eq_true hname)] at hgoes
      exact Bool.false_ne_true hgoes
  rw [read_eq, hnone]
  rfl

/-- The cookie with the longest path is read. -/
theorem read_longest (hjar : Keyed jar) (hc : c ∈ jar) (hgoes : c.key.goes host path = true)
    (hlongest : ∀ d ∈ jar, d.key.name = c.key.name → d.key.goes host path = true → d.key ≠ c.key →
      d.key.path.toList.length < c.key.path.toList.length) :
    read jar host path c.key.name = some c.value := by
  have hsorted := List.pairwise_insertionSort
    (fun a b : Cookie => b.key.path.toList.length ≤ a.key.path.toList.length)
    (jar.filter fun d => d.key.goes host path && d.key.name = c.key.name)
  have hmem : ∀ {d}, d ∈ (jar.filter fun d => d.key.goes host path && d.key.name = c.key.name).insertionSort
      (fun a b => b.key.path.toList.length ≤ a.key.path.toList.length) ↔
      d ∈ jar ∧ d.key.goes host path = true ∧ d.key.name = c.key.name := by
    intro d
    rw [List.mem_insertionSort, List.mem_filter, Bool.and_eq_true, decide_eq_true_eq]
  rw [read_eq]
  cases hrows : (jar.filter fun d => d.key.goes host path && d.key.name = c.key.name).insertionSort
      (fun a b => b.key.path.toList.length ≤ a.key.path.toList.length) with
  | nil =>
    have hin := hmem.mpr ⟨hc, hgoes, rfl⟩
    rw [hrows] at hin
    simp at hin
  | cons first rest =>
    rw [hrows] at hsorted hmem
    obtain ⟨hfirst, hfirstgoes, hname⟩ := hmem.mp List.mem_cons_self
    have hle : c.key.path.toList.length ≤ first.key.path.toList.length := by
      rcases List.mem_cons.mp (hmem.mpr ⟨hc, hgoes, rfl⟩) with rfl | hrest
      · exact Nat.le_refl _
      · exact (List.pairwise_cons.mp hsorted).1 c hrest
    have hkey : first.key = c.key := by
      by_contra hne
      exact absurd (hlongest first hfirst hname hfirstgoes hne) (by omega)
    obtain rfl : first = c := List.inj_on_of_nodup_map hjar hfirst hc hkey
    rfl

end Jars

end LpPlatform.CookieJar
