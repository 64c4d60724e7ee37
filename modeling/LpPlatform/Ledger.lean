import LpPlatform.InterferenceLogic
import LpPlatform.Tables

/-!
# The ledger

Wallets are looked up by broker and currency and created when there is none.
Entries are posted in pairs, through the repository in one statement or
through the worker's adapter in two. The balance of a wallet is its credits
minus its debits over all entries committed so far, read on a connection of
its own even when the caller has a transaction open.
-/

namespace LpPlatform.Ledger

open Amounts DecimalText InterferenceLogic JsValues RowStore Sessions StatementProgram Tables

/-- What a statement draws from outside. -/
structure Input where
  /-- The clock. -/
  now : Instant
  /-- Fresh identifiers. -/
  ids : List String
  /-- Which row a query without an order returns first. -/
  pick : ℕ

/-- A fresh identifier. -/
def Input.id (i : Input) (index : ℕ) : String := i.ids.getD index ""

/-- A statement that draws nothing. -/
def quiet : Input := ⟨0, [], 0⟩

/-- A statement that draws an identifier. -/
def drawing (id : String) : Input := ⟨0, [id], 0⟩

/-- Programs over the platform's tables. -/
abbrev Program (α : Type) := Prog Store Write Input Failure α

/-- The first row of a query without an order. -/
def anyRow {ρ : Type} (rows : List ρ) (pick : ℕ) : Option ρ := rows[pick % rows.length]?

section Rows

variable {ρ : Type} {rows : List ρ} {r : ρ} {pick : ℕ}

theorem anyRow_mem (h : anyRow rows pick = some r) : r ∈ rows := List.mem_of_getElem? h

/-- Where rows are, one of them is returned. -/
theorem anyRow_some (h : r ∈ rows) (pick : ℕ) : ∃ found ∈ rows, anyRow rows pick = some found := by
  have hlt : pick % rows.length < rows.length := Nat.mod_lt pick (List.length_pos_of_mem h)
  exact ⟨rows[pick % rows.length], List.getElem_mem hlt, List.getElem?_eq_getElem hlt⟩

theorem anyRow_none (h : anyRow rows pick = none) : rows = [] := by
  refine List.eq_nil_iff_forall_not_mem.mpr fun r hr => ?_
  obtain ⟨found, -, hfound⟩ := anyRow_some hr pick
  rw [h] at hfound
  exact absurd hfound (by simp)

/-- Any row may be the one that a query returns. -/
theorem anyRow_pick (h : r ∈ rows) : ∃ pick, anyRow rows pick = some r := by
  obtain ⟨pick, hlt, hrow⟩ := List.mem_iff_getElem.mp h
  refine ⟨pick, ?_⟩
  rw [anyRow, Nat.mod_eq_of_lt hlt, List.getElem?_eq_getElem hlt, hrow]

end Rows

/-- Some order of rows, by the code of a permutation. -/
def anyOrder {ρ : Type} : List ρ → ℕ → List ρ
  | [], _ => []
  | r :: rows, code =>
    (anyOrder rows (code / (rows.length + 1))).insertIdx (code % (rows.length + 1)) r

/-- An order of rows is a permutation of them. -/
theorem anyOrder_perm {ρ : Type} (rows : List ρ) (code : ℕ) : (anyOrder rows code).Perm rows := by
  induction rows generalizing code with
  | nil => exact List.Perm.nil
  | cons r rows ih =>
    have hlen : (anyOrder rows (code / (rows.length + 1))).length = rows.length := (ih _).length_eq
    have hpos : code % (rows.length + 1) ≤ (anyOrder rows (code / (rows.length + 1))).length := by
      rw [hlen]
      exact Nat.le_of_lt_succ (Nat.mod_lt _ (Nat.succ_pos _))
    exact (List.perm_insertIdx r _ hpos).trans ((ih _).cons r)

/-- How the database driver sends a parameter. -/
structure Driver where
  /-- The text sent, none for SQL's NULL. -/
  text : Json → Option String
  /-- Strings are sent as they are. -/
  text_str : ∀ s, text (.str s) = some s
  /-- Only strings are sent as bare words. -/
  text_word : ∀ j s, text j = some s → s = "DEBIT" ∨ s = "CREDIT" → j = .str s

/-- A driver that sends strings and nothing else. -/
def plainDriver : Driver where
  text
    | .str s => some s
    | _ => none
  text_str _ := rfl
  text_word j s h _ := by
    cases j <;> simp at h
    exact congrArg Json.str h

/-- A value for a text column that accepts no NULL. -/
def Driver.column (D : Driver) (value : Option Json) : Except Failure String :=
  match value.bind D.text with
  | some s => .ok s
  | none => .error (.database "null value violates not-null constraint")

/-- A value for the direction column. -/
def Driver.direction (D : Driver) (value : Option Json) : Except Failure LedgerDirection :=
  match value.bind D.text with
  | some "DEBIT" => .ok .debit
  | some "CREDIT" => .ok .credit
  | some s => .error (.database s!"invalid input value for enum ledger_direction: {quote s}")
  | none => .error (.database "null value violates not-null constraint")

/-- One leg of a posting. -/
structure PostingLeg where
  walletId : String
  direction : Option Json
  amount : String
  currency : Option Json
  referenceType : LedgerReferenceType
  referenceId : String
  description : String

/-- The row a leg is stored as, under an identity value and an entry id. -/
def Driver.entry (D : Driver) (leg : PostingLeg) :
    Except Failure (ℕ → String → LedgerEntry) := do
  let direction ← D.direction leg.direction
  let amount ← Numeric.insert leg.amount
  let currency ← D.column leg.currency
  return fun id entryId =>
    ⟨id, entryId, leg.walletId, direction, amount, currency, leg.referenceType, leg.referenceId,
      leg.description⟩

/-- Look a wallet up by broker and currency, or insert one. -/
def findOrCreateWallet (D : Driver) (brokerId currency : Option Json) : Program Wallet := do
  let existing ← query fun v i =>
    anyRow (v.own.wallets.filter fun w =>
      brokerId.bind D.text = some w.brokerId ∧ currency.bind D.text = some w.currency) i.pick
  match existing with
  | some wallet => return wallet
  | none =>
    let broker ← ofExcept (D.column brokerId)
    let unit ← ofExcept (D.column currency)
    exec (fun v i => [.insertWallet ⟨v.seq, i.id 0, broker, unit⟩])
      (fun v i => ⟨v.seq, i.id 0, broker, unit⟩)

/-- `LedgerRepository.postPair`: both legs in one statement. -/
def postPair (D : Driver) (legA legB : PostingLeg) : Program (List LedgerEntry) := do
  let rowA ← ofExcept (D.entry legA)
  let rowB ← ofExcept (D.entry legB)
  exec (fun v i => [.insertEntry (rowA v.seq (i.id 0)), .insertEntry (rowB (v.seq + 1) (i.id 1))])
    (fun v i => [rowA v.seq (i.id 0), rowB (v.seq + 1) (i.id 1)])

/-- One leg in a statement of its own. -/
def postLeg (D : Driver) (leg : PostingLeg) : Program String := do
  let row ← ofExcept (D.entry leg)
  exec (fun v i => [.insertEntry (row v.seq (i.id 0))]) (fun _ i => i.id 0)

/-- The ledger operations an action handler uses. -/
structure LedgerOps where
  /-- The wallet of a broker in a currency. -/
  findOrCreateWallet : Option Json → Option Json → Program String
  /-- Post two legs and return their entry ids. -/
  postPair : PostingLeg → PostingLeg → Program (List String)

/-- The adapter over the repository. -/
def drizzleLedgerOps (D : Driver) : LedgerOps where
  findOrCreateWallet brokerId currency := do
    let wallet ← Ledger.findOrCreateWallet D brokerId currency
    return wallet.walletId
  postPair legA legB := do
    let rows ← Ledger.postPair D legA legB
    return rows.map (·.entryId)

/-- The adapter over a client of the worker. -/
def pgLedgerOps (D : Driver) : LedgerOps where
  findOrCreateWallet brokerId currency := do
    let wallet ← Ledger.findOrCreateWallet D brokerId currency
    return wallet.walletId
  postPair legA legB := do
    let entryA ← postLeg D legA
    let entryB ← postLeg D legB
    return [entryA, entryB]

/-- What an entry adds to the balance, in ten-thousandths. -/
def signedUnits (e : LedgerEntry) : ℤ :=
  match e.direction with
  | .credit => e.amount.units
  | .debit => -e.amount.units

/-- The sum over all entries of a wallet, in ten-thousandths. -/
def balanceUnits (entries : List LedgerEntry) (walletId : String) : ℤ :=
  ((entries.filter fun e => e.walletId = walletId).map signedUnits).sum

/-- The sum as the database prints it; without entries it is the constant 0. -/
def balanceText (entries : List LedgerEntry) (walletId : String) : String :=
  if entries.any fun e => e.walletId = walletId then
    let units := balanceUnits entries walletId
    String.ofList (Literal.fixed ⟨decide (units < 0), units.natAbs, 4⟩)
  else "0"

/-- `LedgerRepository.getBalance`, on a connection outside any transaction. -/
def getBalance (walletId : String) : Program String :=
  query fun v _ => balanceText v.committed.entries walletId

/-- The number that `getBalance` reports for a wallet. -/
def balance (d : Store) (walletId : String) : Option ℚ :=
  (literal? (balanceText d.entries walletId).toList).map litValue

/-- The text of a balance stands for the sum over the wallet's entries. -/
theorem balance_eq (d : Store) (walletId : String) :
    balance d walletId = some ((balanceUnits d.entries walletId : ℚ) / 10000) := by
  by_cases h : (d.entries.any fun e => e.walletId = walletId) = true
  · have hread := literal?_fixed ⟨decide (balanceUnits d.entries walletId < 0),
      (balanceUnits d.entries walletId).natAbs, 4⟩
    simp only [balance, balanceText, h, if_true, String.toList_ofList, hread, Option.map_some,
      Option.some.injEq]
    exact litValue_units _
  · have hnone : d.entries.filter (fun e => e.walletId = walletId) = [] := by
      simpa using h
    have hzero : literal? "0".toList = some ⟨false, 0, 0⟩ := by decide
    rw [balance, balanceText, if_neg h, hzero, balanceUnits, hnone]
    simp [litValue]

@[simp] theorem balanceUnits_nil (walletId : String) : balanceUnits [] walletId = 0 := rfl

theorem balanceUnits_append (es fs : List LedgerEntry) (walletId : String) :
    balanceUnits (es ++ fs) walletId = balanceUnits es walletId + balanceUnits fs walletId := by
  simp [balanceUnits]

theorem balanceUnits_cons (e : LedgerEntry) (es : List LedgerEntry) (walletId : String) :
    balanceUnits (e :: es) walletId =
      (if e.walletId = walletId then signedUnits e else 0) + balanceUnits es walletId := by
  by_cases h : e.walletId = walletId <;> simp [balanceUnits, h]

section Rules

variable {C : Contract platform} {t : ℕ} {T : Txn Store Write} {d : Store} {n : ℕ} {D : Driver}
variable {α : Type} {Q : α → Assertion Store Write} {E : Failure → Assertion Store Write}

/-- What only grows is still there after the others have committed. -/
theorem env_growing {ρ : Type} (G : Growing ρ) {held : List Key} {d' : Store} {n' : ℕ} {r : ρ}
    (h : C.Env t held d n d' n') (hr : r ∈ G.rows d) : r ∈ G.rows d' :=
  env_stable (fun x _ => r ∈ G.rows x) (fun _ _ _ _ hx => hx)
    (fun _ ws _ _ _ _ _ _ hx => G.mono ws hx) h hr

/-- A transaction at the default level reads the committed rows under its own
writes. -/
theorem own_opened (d₀ d : Store) (ws : List Write) :
    ((Txn.opened false d₀).add ws).own platform d = platform.applyAll d ws := rfl

/-- The wallet was found by the transaction, or is what it wrote. -/
def WalletFor (T : Txn Store Write) (d : Store) (wallet : Wallet) (ws : List Write) : Prop :=
  (ws = [] ∧ wallet ∈ (T.own platform d).wallets) ∨ ws = [.insertWallet wallet]

/-- Two rows made of two legs. -/
def RowsFor (D : Driver) (legA legB : PostingLeg) (a b : LedgerEntry) : Prop :=
  (∃ row, D.entry legA = .ok row ∧ a = row a.id a.entryId) ∧
    ∃ row, D.entry legB = .ok row ∧ b = row b.id b.entryId

theorem column_ok {value : Option Json} {s : String} (h : D.column value = .ok s) :
    value.bind D.text = some s := by
  cases hv : value.bind D.text with
  | none => simp [Driver.column, hv] at h
  | some x => simpa [Driver.column, hv] using h

theorem column_str {s x : String} (h : (some (Json.str s)).bind D.text = some x) :
    x = s := by
  rw [Option.bind_some, D.text_str] at h
  exact (Option.some.inj h).symm

/-- The row a leg is stored as, spelled out. -/
theorem entry_ok {leg : PostingLeg} {row : ℕ → String → LedgerEntry} (h : D.entry leg = .ok row) :
    ∃ direction amount currency, D.direction leg.direction = .ok direction ∧
      Numeric.insert leg.amount = .ok amount ∧ D.column leg.currency = .ok currency ∧
      row = fun id entryId => ⟨id, entryId, leg.walletId, direction, amount, currency,
        leg.referenceType, leg.referenceId, leg.description⟩ := by
  simp only [Driver.entry, bind, Except.bind, pure, Except.pure] at h
  split at h
  · simp at h
  · rename_i direction hd
    split at h
    · simp at h
    · rename_i amount ha
      split at h
      · simp at h
      · rename_i currency hc
        exact ⟨direction, amount, currency, hd, ha, hc, (Except.ok.inj h).symm⟩

theorem entry_entryId {leg : PostingLeg} {row : ℕ → String → LedgerEntry}
    (h : D.entry leg = .ok row) (id : ℕ) (entryId : String) : (row id entryId).entryId = entryId := by
  obtain ⟨_, _, _, _, _, _, rfl⟩ := entry_ok h
  rfl

/-- The row of a leg has the identity value and entry id it is given. -/
theorem entry_id {leg : PostingLeg} {row : ℕ → String → LedgerEntry} (h : D.entry leg = .ok row)
    (id : ℕ) (entryId : String) :
    row (row id entryId).id (row id entryId).entryId = row id entryId := by
  obtain ⟨_, _, _, _, _, _, rfl⟩ := entry_ok h
  rfl

theorem wp_findOrCreateWallet {Q : Wallet → Assertion Store Write} {brokerId currency : Option Json}
    (hE : ∀ e T d n, E e (some T) d n)
    (hQ : ∀ wallet ws d' n', C.Env t (platform.keysOf T.writes) d n d' n' → C.inv d' n' →
      brokerId.bind D.text = some wallet.brokerId → currency.bind D.text = some wallet.currency →
      WalletFor T d' wallet ws → Q wallet (some (T.add ws)) d' n') :
    wp C t (findOrCreateWallet D brokerId currency) Q E (some T) d n := by
  rw [findOrCreateWallet, bind_eq, wp_bind]
  refine wp_query hE fun v i d₁ n₁ henv₁ hinv₁ hv₁ => ?_
  cases hrow : anyRow (v.own.wallets.filter fun w =>
      brokerId.bind D.text = some w.brokerId ∧ currency.bind D.text = some w.currency) i.pick with
  | some wallet =>
    have hmem := anyRow_mem hrow
    simp only [List.mem_filter, decide_eq_true_eq] at hmem
    have hown : wallet ∈ (T.own platform d₁).wallets := hv₁.own_some ▸ hmem.1
    have hdone := hQ wallet [] d₁ n₁ henv₁ hinv₁ hmem.2.1 hmem.2.2 (Or.inl ⟨rfl, hown⟩)
    simpa [wp] using hdone
  | none =>
    simp only [bind_eq]
    rw [wp_bind]
    refine wp_ofExcept (fun e _ => hE e T d₁ n₁) fun broker hbroker => ?_
    rw [wp_bind]
    refine wp_ofExcept (fun e _ => hE e T d₁ n₁) fun unit hunit => ?_
    refine wp_exec hE fun v' i' d₂ n₂ henv₂ hinv₂ hv₂ hvalid => ?_
    have hb : brokerId.bind D.text = some broker := column_ok hbroker
    have hu : currency.bind D.text = some unit := column_ok hunit
    exact hQ _ _ d₂ _ (env_wait (env_trans henv₁ henv₂) _)
      (C.inv_mono hinv₂ (Nat.le_add_right _ _)) hb hu (Or.inr rfl)

theorem wp_postPair {Q : List LedgerEntry → Assertion Store Write} {legA legB : PostingLeg}
    (hE : ∀ e T d n, E e (some T) d n)
    (hQ : ∀ a b d' n', C.Env t (platform.keysOf T.writes) d n d' n' → C.inv d' n' →
      RowsFor D legA legB a b →
      Q [a, b] (some (T.add [.insertEntry a, .insertEntry b])) d' n') :
    wp C t (postPair D legA legB) Q E (some T) d n := by
  rw [postPair, bind_eq, wp_bind]
  refine wp_ofExcept (fun e _ => hE e T d n) fun rowA hA => ?_
  rw [bind_eq, wp_bind]
  refine wp_ofExcept (fun e _ => hE e T d n) fun rowB hB => ?_
  refine wp_exec hE fun v i d' n' henv hinv hv hvalid => ?_
  exact hQ _ _ d' _ (env_wait henv _) (C.inv_mono hinv (Nat.le_add_right _ _))
    ⟨⟨rowA, hA, (entry_id hA _ _).symm⟩, rowB, hB, (entry_id hB _ _).symm⟩

theorem wp_postLeg {Q : String → Assertion Store Write} {leg : PostingLeg}
    (hE : ∀ e T d n, E e (some T) d n)
    (hQ : ∀ row a d' n', C.Env t (platform.keysOf T.writes) d n d' n' → C.inv d' n' →
      D.entry leg = .ok row → a = row a.id a.entryId →
      Q a.entryId (some (T.add [.insertEntry a])) d' n') :
    wp C t (postLeg D leg) Q E (some T) d n := by
  rw [postLeg, bind_eq, wp_bind]
  refine wp_ofExcept (fun e _ => hE e T d n) fun row hrow => ?_
  refine wp_exec hE fun v i d' n' henv hinv hv hvalid => ?_
  have hid : (row v.seq (i.id 0)).entryId = i.id 0 := entry_entryId hrow _ _
  have hdone := hQ row (row v.seq (i.id 0)) d' (n' + 1) (env_wait henv 1)
    (C.inv_mono hinv (Nat.le_add_right _ _)) hrow (entry_id hrow _ _).symm
  rwa [hid] at hdone

/-- What both adapters do inside a transaction. -/
structure LedgerOps.Meets (ops : LedgerOps) (D : Driver) : Prop where
  /-- A wallet of the broker in the currency, found or inserted. -/
  findOrCreateWallet : ∀ {C : Contract platform} {t T d n} {Q : String → Assertion Store Write}
    {E : Failure → Assertion Store Write} {brokerId currency : Option Json},
    (∀ e T d n, E e (some T) d n) →
    (∀ wallet ws d' n', C.Env t (platform.keysOf T.writes) d n d' n' → C.inv d' n' →
      brokerId.bind D.text = some wallet.brokerId → currency.bind D.text = some wallet.currency →
      WalletFor T d' wallet ws → Q wallet.walletId (some (T.add ws)) d' n') →
    wp C t (ops.findOrCreateWallet brokerId currency) Q E (some T) d n
  /-- Both legs inserted, in order. -/
  postPair : ∀ {C : Contract platform} {t T d n} {Q : List String → Assertion Store Write}
    {E : Failure → Assertion Store Write} {legA legB : PostingLeg},
    (∀ e T d n, E e (some T) d n) →
    (∀ a b d' n', C.Env t (platform.keysOf T.writes) d n d' n' → C.inv d' n' →
      RowsFor D legA legB a b →
      Q [a.entryId, b.entryId] (some (T.add [.insertEntry a, .insertEntry b])) d' n') →
    wp C t (ops.postPair legA legB) Q E (some T) d n

theorem drizzleLedgerOps_meets (D : Driver) : (drizzleLedgerOps D).Meets D where
  findOrCreateWallet hE hQ := by
    simp only [drizzleLedgerOps, bind_eq]
    rw [wp_bind]
    exact wp_findOrCreateWallet hE hQ
  postPair hE hQ := by
    simp only [drizzleLedgerOps, bind_eq]
    rw [wp_bind]
    exact wp_postPair hE hQ

theorem pgLedgerOps_meets (D : Driver) : (pgLedgerOps D).Meets D where
  findOrCreateWallet hE hQ := by
    simp only [pgLedgerOps, bind_eq]
    rw [wp_bind]
    exact wp_findOrCreateWallet hE hQ
  postPair hE hQ := by
    simp only [pgLedgerOps, bind_eq]
    rw [wp_bind]
    refine wp_postLeg hE fun rowA a d₁ n₁ henv₁ hinv₁ hA ha => ?_
    rw [wp_bind]
    refine wp_postLeg hE fun rowB b d₂ n₂ henv₂ hinv₂ hB hb => ?_
    rw [add_add]
    exact hQ a b d₂ n₂ (env_trans henv₁ (env_add henv₂)) hinv₂ ⟨⟨rowA, hA, ha⟩, rowB, hB, hb⟩

end Rules

end LpPlatform.Ledger
