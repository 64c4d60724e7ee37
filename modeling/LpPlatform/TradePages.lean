import LpPlatform.KeysetPages
import LpPlatform.PortalReads

/-!
# Paging through the trades

A client starts without a cursor and follows the cursor of each page until a
page has none. The cursor is the id before the last one listed, printed as
text and read back by the next call. Meanwhile trades with larger ids may be
appended: they are above every cursor, so what is listed are the trades that
matched when the first page was read.
-/

namespace LpPlatform.TradePages

open BrokerPortal DecimalText JsValues KeysetPages Ledger OrderIntake PortalReads RowStore
open StatementProgram Tables TradeChain TradesList

/-- The query of a later call: the same filters and the cursor. -/
def withCursor (query : Query) (cursor : Option String) : Query := fun key =>
  if key = "cursor" then cursor.map QueryParam.one else query key

/-- The endpoint answers with the page when it runs on these rows. -/
def Answers (K : PortalConfig) (user : Option CurrentUser) (query : Query) (d : Store)
    (page : TradePage) : Prop :=
  ∀ i n, (list K user query).solo platform [i] d n none = some (.ok page, d, n)

/-- The pages that a client reads from a call on, each on the rows of its own
time, show these trades. -/
inductive Listing (K : PortalConfig) (user : Option CurrentUser) (query : Query) (d : ℕ → Store) :
    ℕ → Option String → List Trade → Prop where
  | last {k cursor page rows} (hpage : Answers K user (withCursor query cursor) (d k) page)
    (hitems : page.items = rows.map (tradeListItem (d k))) (hend : page.nextCursor = none) :
    Listing K user query d k cursor rows
  | more {k cursor page rows next later}
    (hpage : Answers K user (withCursor query cursor) (d k) page)
    (hitems : page.items = rows.map (tradeListItem (d k))) (hnext : page.nextCursor = some next)
    (hrest : Listing K user query d (k + 1) (some next) later) :
    Listing K user query d k cursor (rows ++ later)

/-- The broker's trades have distinct ids that fit their column. -/
structure Identified (brokerId : String) (d : Store) : Prop where
  nodup : ((tradesOf brokerId d.trades).map (·.id)).Nodup
  bounded : ∀ t ∈ tradesOf brokerId d.trades, t.id < 2 ^ 63

/-- The broker's trades are those there were and later ones with larger ids. -/
def Appended (brokerId : String) (d d' : Store) : Prop :=
  ∃ new, tradesOf brokerId d'.trades = tradesOf brokerId d.trades ++ new ∧
    ∀ t ∈ tradesOf brokerId d.trades, ∀ t' ∈ new, t.id < t'.id

/-- The trade passes the filters of a query. -/
structure Matches (brokerId : String) (q : ListQuery) (t : Trade) : Prop where
  broker : t.brokerId = brokerId
  symbol : ∀ symbol ∈ q.symbol, t.symbol = symbol
  side : ∀ side ∈ q.side, t.side = side
  from_ : ∀ instant ∈ q.from_, instant ≤ t.executedAt
  to_ : ∀ instant ∈ q.to_, t.executedAt < instant

section Cursors

/-- The digits of a number are read as the number. -/
theorem digitsIn_digits {cs : List Char} (hne : cs ≠ []) (h : ∀ c ∈ cs, c.isDigit = true) :
    digitsIn 10 cs = some (Nat.ofDigitChars 10 cs 0) := by
  have hdigit : ∀ c : Char, c.isDigit = true → digitIn 10 c = some (c.toNat - 48) := by
    intro c hc
    have hbound : 48 ≤ c.toNat ∧ c.toNat ≤ 57 := by
      simpa [Char.isDigit, UInt32.le_iff_toNat_le] using hc
    have hsmall : c.toNat - 48 < 10 := by omega
    simp [digitIn, hc, hsmall]
  have hfold : ∀ (cs : List Char) n, (∀ c ∈ cs, c.isDigit = true) →
      cs.foldl (fun n c => n.bind fun n => (digitIn 10 c).map (10 * n + ·)) (some n) =
        some (Nat.ofDigitChars 10 cs n) := by
    intro cs
    induction cs with
    | nil => exact fun n _ => by rw [Nat.ofDigitChars_nil]; rfl
    | cons c cs ih =>
      intro n hcs
      obtain ⟨hc, hrest⟩ := List.forall_mem_cons.mp hcs
      rw [List.foldl_cons, Option.bind_some, hdigit c hc, Option.map_some, ih _ hrest,
        Nat.ofDigitChars_cons]
      rfl
  rw [digitsIn, if_neg hne, hfold cs 0 h]

/-- A text of digits is not trimmed. -/
theorem trim_digits {cs : List Char} (h : ∀ c ∈ cs, c.isDigit = true) : trim cs = cs :=
  trim_eq_self fun c hc => isSpace_of_isDigit (h c hc)

/-- `BigInt` reads digits as a number. -/
theorem toBigInt_digits {text : String} (hne : text.toList ≠ [])
    (h : ∀ c ∈ text.toList, c.isDigit = true) :
    toBigInt text = .ok (Nat.ofDigitChars 10 text.toList 0 : ℕ) := by
  have hread := digitsIn_digits hne h
  have hletter : ∀ {c : Char} {a : Char} {rest : List Char}, c.isDigit = false →
      text.toList ≠ a :: c :: rest := by
    intro c a rest hc heq
    have hdigit := h c (by simp [heq])
    simp [hc] at hdigit
  have hsign : ∀ {c : Char} {rest : List Char}, c.isDigit = false → text.toList ≠ c :: rest := by
    intro c rest hc heq
    have hdigit := h c (by simp [heq])
    simp [hc] at hdigit
  have hwhole : unsignedInteger text.toList =
      some ((Nat.ofDigitChars 10 text.toList 0 : ℕ) : ℤ) := by
    unfold unsignedInteger
    split
    · rename_i heq
      exact absurd heq hne
    · rename_i rest heq
      exact absurd heq (hsign (by decide))
    · rename_i rest heq
      exact absurd heq (hsign (by decide))
    · rw [hread]
      rfl
  unfold toBigInt
  rw [trim_digits h]
  split
  · rename_i heq
    exact absurd heq (hletter (by decide))
  · rename_i heq
    exact absurd heq (hletter (by decide))
  · rename_i heq
    exact absurd heq (hletter (by decide))
  · rename_i heq
    exact absurd heq (hletter (by decide))
  · rename_i heq
    exact absurd heq (hletter (by decide))
  · rename_i heq
    exact absurd heq (hletter (by decide))
  · simp only [hwhole]

/-- A cursor in the range of the column is compared as the number it prints. -/
theorem cursorField_of_read {z : ℤ} (hread : toBigInt (toString z) = .ok z)
    (hempty : toString z ≠ "") (hlow : -2 ^ 63 ≤ z) (hhigh : z < 2 ^ 63) :
    cursorField (some (toString z)) = .ok (some z) := by
  rw [cursorField, if_neg hempty, hread]
  simp only [bind, Except.bind]
  rw [if_pos ⟨hlow, hhigh⟩]
  rfl

/-- The cursor of a row is read back as the number below its id. -/
theorem cursorField_next {id : ℕ} (h : id < 2 ^ 63) :
    cursorField (some (toString ((id : ℤ) - 1))) = .ok (some ((id : ℤ) - 1)) := by
  cases id with
  | zero =>
    have hread : toBigInt (toString (-1 : ℤ)) = .ok (-1) := by decide +kernel
    exact cursorField_of_read hread (by decide) (by norm_num) (by norm_num)
  | succ id =>
    have hpred : ((id + 1 : ℕ) : ℤ) - 1 = (id : ℤ) := by omega
    have htext : (toString (id : ℤ)).toList = Nat.toDigits 10 id := by
      rw [Int.toString_eq_repr, Int.repr_eq_if, if_pos (by omega), Int.toNat_natCast, Nat.toList_repr]
    have hdigits : ∀ c ∈ (toString (id : ℤ)).toList, c.isDigit = true := by
      rw [htext]
      exact fun c hc => Nat.isDigit_of_mem_toDigits (by decide) (by decide) hc
    have hne : (toString (id : ℤ)).toList ≠ [] := by
      rw [htext]
      exact Nat.toDigits_ne_nil
    have hread : toBigInt (toString (id : ℤ)) = .ok (id : ℤ) := by
      rw [toBigInt_digits hne hdigits, htext, Nat.ofDigitChars_toDigits (by decide) (by decide)]
    have hempty : toString (id : ℤ) ≠ "" := fun heq => hne (by rw [heq]; rfl)
    rw [hpred]
    exact cursorField_of_read hread hempty (by omega) (by omega)

end Cursors

section Rows

/-- The filters of a query. -/
def passes (q : ListQuery) (t : Trade) : Bool :=
  q.symbol.all (· = t.symbol) && q.side.all (· = t.side) && q.from_.all (· ≤ t.executedAt) &&
    q.to_.all (t.executedAt < ·)

/-- The trades that match a query, the newest first. -/
def matching (brokerId : String) (q : ListQuery) (d : Store) : List Trade :=
  ((tradesOf brokerId d.trades).filter (passes q)).insertionSort fun a b => b.id ≤ a.id

/-- What the repository is asked for by a call. -/
def asked (brokerId : String) (q : ListQuery) (cursor : Option ℤ) : TradeListQuery :=
  ⟨brokerId, q.symbol, q.side, q.from_, q.to_, cursor, q.limit⟩

variable {brokerId : String} {q : ListQuery} {d : ℕ → Store} {k : ℕ} {t : Trade}

theorem mem_matching {d : Store} :
    t ∈ matching brokerId q d ↔ t ∈ tradesOf brokerId d.trades ∧ passes q t = true := by
  rw [matching, List.mem_insertionSort, List.mem_filter]

theorem passes_iff (hbroker : t.brokerId = brokerId) :
    passes q t = true ↔ Matches brokerId q t := by
  have hall : ∀ {β : Type} (o : Option β) (P : β → Prop) [DecidablePred P],
      o.all (fun x => decide (P x)) = true ↔ ∀ x ∈ o, P x := by
    intro β o P _
    cases o <;> simp
  simp only [passes, Bool.and_eq_true, hall]
  constructor
  · rintro ⟨⟨⟨hsymbol, hside⟩, hfrom⟩, hto⟩
    exact ⟨hbroker, fun x hx => (hsymbol x hx).symm, fun x hx => (hside x hx).symm, hfrom, hto⟩
  · rintro ⟨-, hsymbol, hside, hfrom, hto⟩
    exact ⟨⟨⟨fun x hx => (hsymbol x hx).symm, fun x hx => (hside x hx).symm⟩, hfrom⟩, hto⟩

/-- Distinct ids are listed in strictly decreasing order. -/
theorem matching_descending {d : Store} (hd : Identified brokerId d) :
    Descending Trade.id (matching brokerId q d) := by
  have hsorted : (matching brokerId q d).Pairwise fun a b => b.id ≤ a.id :=
    List.pairwise_insertionSort (fun a b : Trade => b.id ≤ a.id) _
  have hnodup : ((matching brokerId q d).map (·.id)).Nodup := by
    have hfilter : (((tradesOf brokerId d.trades).filter (passes q)).map (·.id)).Nodup :=
      hd.nodup.sublist (List.filter_sublist.map _)
    exact ((List.perm_insertionSort _ _).map _).nodup_iff.mpr hfilter
  have hdistinct : (matching brokerId q d).Pairwise fun a b => a.id ≠ b.id :=
    List.pairwise_map.mp hnodup
  exact (hsorted.and hdistinct).imp fun h => lt_of_le_of_ne h.1 (Ne.symm h.2)

/-- Sorting and dropping rows commute when the ids are distinct. -/
theorem sort_filter {rows : List Trade} (hids : (rows.map (·.id)).Nodup) (p : Trade → Bool) :
    (rows.filter p).insertionSort (fun a b => b.id ≤ a.id) =
      (rows.insertionSort fun a b => b.id ≤ a.id).filter p := by
  have hperm : ((rows.filter p).insertionSort fun a b => b.id ≤ a.id).Perm
      ((rows.insertionSort fun a b => b.id ≤ a.id).filter p) :=
    (List.perm_insertionSort _ _).trans ((List.perm_insertionSort _ rows).symm.filter p)
  refine hperm.eq_of_pairwise (fun a b ha hb hle hge => ?_)
    (List.pairwise_insertionSort (fun a b : Trade => b.id ≤ a.id) _)
    ((List.pairwise_insertionSort (fun a b : Trade => b.id ≤ a.id) rows).filter p)
  have ha : a ∈ rows := (List.mem_filter.mp ((List.mem_insertionSort _).mp ha)).1
  have hb : b ∈ rows := (List.mem_insertionSort _).mp (List.mem_filter.mp hb).1
  exact List.inj_on_of_nodup_map hids ha hb (le_antisymm hge hle)

/-- Trades appended call by call are above those of the first call. -/
theorem appended_since (hgrow : ∀ k, Appended brokerId (d k) (d (k + 1))) (k : ℕ) :
    Appended brokerId (d 0) (d k) := by
  induction k with
  | zero => exact ⟨[], by simp, by simp⟩
  | succ k ih =>
    obtain ⟨new, hnew, habove⟩ := ih
    obtain ⟨later, hlater, habove'⟩ := hgrow k
    refine ⟨new ++ later, by rw [hlater, hnew, List.append_assoc], fun t ht t' ht' => ?_⟩
    rcases List.mem_append.mp ht' with h | h
    · exact habove t ht t' h
    · exact habove' t (by rw [hnew]; exact List.mem_append_left _ ht) t' h

/-- A page shows the newest trades that match and are not above the cursor. -/
theorem findByBroker_asked (cursor : Option ℤ) (d : Store) :
    findByBroker (asked brokerId q cursor) d =
      (((tradesOf brokerId d.trades).filter fun t => passes q t && cursor.all ((t.id : ℤ) ≤ ·)).insertionSort
        fun a b => b.id ≤ a.id).take q.limit := rfl

theorem findByBroker_first (d : Store) :
    findByBroker (asked brokerId q none) d = (matching brokerId q d).take q.limit := by
  simp only [findByBroker_asked, Option.all_none, Bool.and_true, matching]

/-- A later page shows the newest of those that matched at first and are not
above the cursor. -/
theorem findByBroker_later (hd : Identified brokerId (d 0))
    (hgrow : ∀ k, Appended brokerId (d k) (d (k + 1))) (ht : t ∈ matching brokerId q (d 0)) :
    findByBroker (asked brokerId q (some ((t.id : ℤ) - 1))) (d k) =
      (upTo Trade.id (some ((t.id : ℤ) - 1)) (matching brokerId q (d 0))).take q.limit := by
  obtain ⟨new, hnew, habove⟩ := appended_since hgrow k
  have hsmall : t ∈ tradesOf brokerId (d 0).trades := (mem_matching.mp ht).1
  have hnone : new.filter (fun a => passes q a && (some ((t.id : ℤ) - 1)).all ((a.id : ℤ) ≤ ·)) = [] := by
    refine List.filter_eq_nil_iff.mpr fun a ha => ?_
    have hlt := habove t hsmall a ha
    have hnot : ¬ (a.id : ℤ) ≤ (t.id : ℤ) - 1 := by omega
    simp [hnot]
  have hids : (((tradesOf brokerId (d 0).trades).filter (passes q)).map (·.id)).Nodup :=
    hd.nodup.sublist (List.filter_sublist.map _)
  rw [findByBroker_asked, hnew, List.filter_append, hnone, List.append_nil, upTo, matching,
    ← sort_filter hids, List.filter_filter]
  simp only [Bool.and_comm]

end Rows

section Calls

variable {K : PortalConfig} {user : Option CurrentUser} {query : Query} {q : ListQuery}
variable {brokerId : String} {d : Store}

/-- A cursor changes nothing else in what the schema reads. -/
theorem schema_withCursor {P : DateParser}
    (hq : tradeListQuerySchema P (withCursor query none) = some q) (cursor : Option String) :
    tradeListQuerySchema P (withCursor query cursor) = some { q with cursor := cursor } := by
  have hother : ∀ key, key ≠ "cursor" → ∀ c, withCursor query c key = query key :=
    fun key hkey c => if_neg hkey
  have hparam : ∀ key, key ≠ "cursor" → ∀ c, stringParam (withCursor query c) key = stringParam query key :=
    fun key hkey c => by rw [stringParam, stringParam, hother key hkey c]
  have hcursor : ∀ c, optional Json.string? (stringParam (withCursor query c) "cursor") = some c := by
    intro c
    cases c with
    | none => rfl
    | some text => rfl
  simp only [tradeListQuerySchema, hparam "brokerId" (by decide), hparam "symbol" (by decide),
    hparam "side" (by decide), hparam "from" (by decide), hparam "to" (by decide),
    hother "limit" (by decide), hcursor, Option.bind_eq_bind, Option.bind_eq_some_iff,
    Option.some.injEq] at hq ⊢
  obtain ⟨b, hb, s, hs, sd, hsd, f, hf, t, ht, c, hc, l, hl, rfl⟩ := hq
  exact ⟨b, hb, s, hs, sd, hsd, f, hf, t, ht, cursor, rfl, l, hl, rfl⟩

/-- The size of a page is at least one. -/
theorem limit_pos {P : DateParser} (hq : tradeListQuerySchema P query = some q) : 0 < q.limit := by
  simp only [tradeListQuerySchema, Option.bind_eq_bind, Option.bind_eq_some_iff,
    Option.some.injEq] at hq
  obtain ⟨-, -, -, -, -, -, -, -, -, -, -, -, l, hl, rfl⟩ := hq
  unfold limitField at hl
  split at hl
  · obtain rfl := Option.some.inj hl
    exact Nat.succ_pos 49
  · split at hl
    · rename_i x _
      simp only [Option.ite_none_right_eq_some] at hl
      obtain ⟨⟨-, hone, -⟩, hl⟩ := hl
      obtain rfl := Option.some.inj hl
      have hpos : 0 < x := lt_of_lt_of_le (by norm_num) hone
      exact Int.pos_iff_toNat_pos.mp (Rat.num_pos.mpr hpos)
    · simp at hl

/-- The endpoint answers with the page of the rows it finds. -/
theorem answers_list (hq : tradeListQuerySchema K.dateParser query = some q)
    (hscope : scope user q.brokerId = .ok brokerId) {cursor : Option ℤ}
    (hcursor : cursorField q.cursor = .ok cursor) :
    Answers K user query d ⟨(findByBroker (asked brokerId q cursor) d).map (tradeListItem d),
      (next Trade.id q.limit (findByBroker (asked brokerId q cursor) d)).map toString⟩ := by
  intro i n
  have hasked : (⟨brokerId, q.symbol, q.side, q.from_, q.to_, cursor, q.limit⟩ : TradeListQuery) =
      asked brokerId q cursor := rfl
  simp only [list, hq, hscope, hcursor, StatementProgram.ofExcept, bind_eq, Prog.bind,
    StatementProgram.query, Prog.solo, hasked, validAll_nil, if_true, pure_eq, Option.getD_none,
    applyAll_nil, List.length_nil, Nat.add_zero]
  have hitems : ∀ rows : List Trade, (rows.map fun t => (t.id, tradeListItem d t)).map Prod.snd =
      rows.map (tradeListItem d) := fun rows => List.map_map ..
  have hnext : ∀ rows : List Trade, (if (rows.map fun t => (t.id, tradeListItem d t)).length = q.limit
      then (rows.map fun t => (t.id, tradeListItem d t)).getLast?.map fun r => toString ((r.1 : ℤ) - 1)
      else none) = (next Trade.id q.limit rows).map toString := by
    intro rows
    rw [List.getLast?_map, Option.map_map, next]
    split
    · rename_i hlen
      rw [List.length_map] at hlen
      rw [if_pos hlen, Option.map_map]
      rfl
    · rename_i hlen
      rw [List.length_map] at hlen
      rw [if_neg hlen]
      rfl
  rw [hitems]
  exact congrArg (fun cursor : Option String =>
    some ((Except.ok (TradePage.mk _ cursor) : Except Failure TradePage), d, n)) (hnext _)

/-- The rows of the pages are what a client lists. -/
theorem listing_of_pages (hq : tradeListQuerySchema K.dateParser (withCursor query none) = some q)
    (hscope : scope user q.brokerId = .ok brokerId) {d : ℕ → Store} {k : ℕ} {cursor : Option ℤ}
    {pages : List (List Trade)}
    (h : Pages Trade.id q.limit (fun k cursor => findByBroker (asked brokerId q cursor) (d k)) k cursor
      pages)
    (hbounded : ∀ t ∈ pages.flatten, t.id < 2 ^ 63)
    (hcursor : cursorField (cursor.map toString) = .ok cursor) :
    Listing K user query d k (cursor.map toString) pages.flatten := by
  induction h with
  | @last k cursor hend =>
    have hpage := answers_list (d := d k) (schema_withCursor hq (cursor.map toString)) hscope hcursor
    rw [List.flatten_singleton]
    exact .last hpage rfl (congrArg (Option.map toString) hend)
  | @more k cursor cursor' pages hnext hrest ih =>
    have hpage := answers_list (d := d k) (schema_withCursor hq (cursor.map toString)) hscope hcursor
    have hfield : cursorField ((some cursor').map toString) = .ok (some cursor') := by
      obtain ⟨-, hlast⟩ := Option.ite_none_right_eq_some.mp hnext
      obtain ⟨r, hr, rfl⟩ := Option.map_eq_some_iff.mp hlast
      exact cursorField_next (hbounded r (List.mem_append_left _ (List.mem_of_getLast? hr)))
    have hlater := ih (fun t ht => hbounded t (List.mem_append_right _ ht)) hfield
    rw [List.flatten_cons]
    exact .more hpage rfl (congrArg (Option.map toString) hnext) hlater

/-- Paging through the trades is complete: whatever filters a query has,
following the cursors ends, and lists in strictly decreasing order of ids
exactly the matching trades there were at the first call, even when trades
with larger ids are appended between the calls. -/
theorem pagination_complete (hq : tradeListQuerySchema K.dateParser (withCursor query none) = some q)
    (hscope : scope user q.brokerId = .ok brokerId) {d : ℕ → Store} (hd : Identified brokerId (d 0))
    (hgrow : ∀ k, Appended brokerId (d k) (d (k + 1))) :
    ∃ rows, Listing K user query d 0 none rows ∧ rows.Pairwise (fun a b => b.id < a.id) ∧
      ∀ t, t ∈ rows ↔ t ∈ (d 0).trades ∧ Matches brokerId q t := by
  have hdescending : Descending Trade.id (matching brokerId q (d 0)) := matching_descending hd
  have hlater : ∀ k, ∀ r ∈ matching brokerId q (d 0),
      findByBroker (asked brokerId q (some ((r.id : ℤ) - 1))) (d k) =
        (upTo Trade.id (some ((r.id : ℤ) - 1)) (matching brokerId q (d 0))).take q.limit :=
    fun k r hr => findByBroker_later hd hgrow hr
  obtain ⟨pages, hpages, hflatten⟩ : ∃ pages, Pages Trade.id q.limit
      (fun k cursor => findByBroker (asked brokerId q cursor) (d k)) 0 none pages ∧
      pages.flatten = matching brokerId q (d 0) :=
    pages_complete (limit_pos hq) hdescending (findByBroker_first (d 0)) hlater
  have hbounded : ∀ t ∈ pages.flatten, t.id < 2 ^ 63 := by
    intro t ht
    rw [hflatten] at ht
    exact hd.bounded t (mem_matching.mp ht).1
  refine ⟨pages.flatten, listing_of_pages hq hscope hpages hbounded rfl, ?_, fun t => ?_⟩
  · rw [hflatten]
    exact hdescending
  · rw [hflatten, mem_matching, tradesOf, List.mem_filter]
    constructor
    · rintro ⟨⟨ht, hbroker⟩, hpass⟩
      exact ⟨ht, (passes_iff (of_decide_eq_true hbroker)).mp hpass⟩
    · rintro ⟨ht, hmatch⟩
      exact ⟨⟨ht, decide_eq_true hmatch.broker⟩, (passes_iff hmatch.broker).mpr hmatch⟩

/-- A trade of broker B1. -/
def numbered (id : ℕ) : Trade :=
  ⟨id, "T" ++ toString id, "O" ++ toString id, "B1", "AAPL", .buy, .one,
    .one, 0, "", toString id⟩

/-- Two trades at the first call, and a third from the second call on. -/
def growing (k : ℕ) : Store :=
  { Store.empty with trades := if k = 0 then [numbered 2, numbered 5] else [numbered 2, numbered 5, numbered 7] }

/-- Pages of one trade. -/
def onePerPage : Query := fun key => if key = "limit" then some (.one "1") else none

theorem pagination_complete_growing : ∃ rows,
    Listing ⟨.epoch, fun _ => none, ⟨0, "0"⟩⟩
      (some ⟨"U1", "u1@b1.test", .brokerUser, some "B1"⟩) onePerPage growing 0 none rows ∧
    rows.Pairwise (fun a b => b.id < a.id) ∧ ∀ t, t ∈ rows ↔ t ∈ [numbered 2, numbered 5] ∧
      Matches "B1" ⟨none, none, none, none, none, none, 1⟩ t := by
  have hlimit : limitField (some (.one "1")) = some 1 := by decide +kernel
  refine pagination_complete ?_ rfl ⟨by decide, by decide⟩ fun k => ?_
  · simp [tradeListQuerySchema, withCursor, onePerPage, stringParam, OrderIntake.optional, hlimit]
  · cases k with
    | zero => exact ⟨[numbered 7], by decide, by decide⟩
    | succ k => exact ⟨[], rfl, by simp⟩

end Calls

end LpPlatform.TradePages
