import Mathlib.Data.Fintype.EquivFin
import LpPlatform.WithdrawalFloor

/-!
# The currency of a withdrawal and its cap

A withdrawal request is checked against the balances of all wallets of its
broker, whatever their currencies, and is filed in the currency of the wallet
that the query happens to return first. The arithmetic of the check is kept
apart from it: with the rounding of doubles it is the check of the platform,
without rounding it is the check on exact decimals. On exact decimals a request
is within the cap of its currency exactly when no other currency adds to the
sum and the currency itself covers the floor.
-/

namespace LpPlatform.CurrencyCaps

open Amounts AuditInterceptor BrokerPortal DecimalText DepositsAdmin JsValues Ledger RowStore
open StatementProgram Tables TradeChain WithdrawalFloor

/-- `Number` of the text of a numeric column, under a rounding. -/
def numberWith (round : ℚ → ℚ) (text : String) : ℚ :=
  ((literal? (trim text.toList)).map fun l => round (litValue l)).getD 0

/-- The balances of some wallets, added up under a rounding. -/
def addBalancesWith (round : ℚ → ℚ) : List Wallet → ℚ → Program ℚ
  | [], balance => return balance
  | w :: wallets, balance => do
    let text ← getBalance w.walletId
    addBalancesWith round wallets (round (balance + numberWith round text))

/-- A request that is filed if the balance above the floor covers it. -/
def fileCapped (round : ℚ → ℚ) (floor : JsNumber) (brokerId currency : String) (body : CreateDeposit)
    (balance : ℚ) : Program DepositDto := do
  let avail := max 0 (round (balance - floor.value))
  let amount := numberWith round body.amount
  ensure (amount ≤ round (avail + round (1 / 10 ^ 9)))
    (.domain "VALIDATION_FAILED" (s!"Only {toFixed avail 2} {currency} is withdrawable" ++
      s!" (balance above the {floor.text} floor).") 400)
  fileRequest .withdrawal brokerId currency body "Withdrawal request not persisted"

/-- `BrokerPortalController.createWithdrawalRequest`, under a rounding. -/
def createWithdrawalRequestWith (round : ℚ → ℚ) (floor : JsNumber) (user : Option CurrentUser)
    (body : Json) : Program DepositDto := do
  let body ← ofExcept (createDepositSchema body)
  let brokerId ← ofExcept (scope user none)
  let walletsOf ← findWalletsByBroker brokerId
  let currency := (walletsOf.head?.map (·.currency)).getD "USD"
  let balance ← addBalancesWith round walletsOf 0
  fileCapped round floor brokerId currency body balance

/-- With the rounding of doubles it is what the platform runs. -/
theorem createWithdrawalRequestWith_toDouble (floor : JsNumber) (user : Option CurrentUser) (body : Json) :
    createWithdrawalRequestWith toDouble floor user body = createWithdrawalRequest floor user body := by
  have hadd : ∀ wallets balance,
      addBalancesWith toDouble wallets balance = addBalances wallets balance := by
    intro wallets
    induction wallets with
    | nil => exact fun balance => rfl
    | cons w wallets ih =>
      intro balance
      rw [addBalancesWith, addBalances]
      exact congrArg _ (funext fun text => ih _)
  rw [createWithdrawalRequestWith, createWithdrawalRequest]
  simp only [hadd]
  rfl

/-- The balance of a broker over all its wallets. -/
def wholeBalance (d : Store) (brokerId : String) : ℚ :=
  (totalUnits d.entries (d.wallets.filter fun w => w.brokerId = brokerId) : ℚ) / 10000

/-- The currencies that a request may be filed in. -/
def requestCurrencies (d : Store) (brokerId : String) : List String :=
  match d.wallets.filter fun w => w.brokerId = brokerId with
  | [] => ["USD"]
  | wallets => wallets.map (·.currency)

/-- The greatest amount of a numeric column. -/
def maxAmount : ℚ := (10 ^ 20 - 1) / 10000

/-- No amount of four decimals lies above the bound by at most the tolerance. -/
def Tolerant (bound : ℚ) : Prop := ∀ k : ℤ, bound < k / 10000 → bound + 1 / 10 ^ 9 < k / 10000

/-- The balance in a currency covers the floor, and the other currencies add
nothing to it, unless no amount exceeds what it leaves. -/
structure Covered (floor : JsNumber) (d : Store) (brokerId currency : String) : Prop where
  covers : floor.value ≤ brokerBalance d brokerId currency
  others : (wholeBalance d brokerId ≤ brokerBalance d brokerId currency ∧
    (wholeBalance d brokerId = brokerBalance d brokerId currency →
      Tolerant (brokerBalance d brokerId currency - floor.value))) ∨
    maxAmount ≤ brokerBalance d brokerId currency - floor.value

/-- Every request that is stored is within the balance above the floor in its
currency, for every accepted body and every order of the wallets. -/
def CappedPerCurrency (round : ℚ → ℚ) (floor : JsNumber) (user : Option CurrentUser) (d : Store) : Prop :=
  ∀ body inputs n r d' n', (createWithdrawalRequestWith round floor user body).solo platform inputs d n
      none = some (r, d', n') → ∀ row, d'.requests = d.requests ++ [row] →
    row.amount.value ≤ brokerBalance d row.brokerId row.currency - floor.value

section Steps

variable {α β : Type} {d : Store} {n : ℕ} {is : List Input}

/-- The view of a statement that runs alone. -/
def aloneView (d : Store) (n : ℕ) : View Store := ⟨d, d, n, 0, fun t => t = 0⟩

theorem solo_query_bind (f : View Store → Input → α) (g : α → Program β) (i : Input) :
    ((query f).bind g).solo platform (i :: is) d n none =
      (g (f (aloneView d n) i)).solo platform is d n none := rfl

/-- A program that starts with a query has drawn an input. -/
theorem solo_query_inv {f : View Store → Input → α} {g : α → Program β}
    {x : Except Failure β × Store × ℕ} (h : ((query f).bind g).solo platform is d n none = some x) :
    ∃ i rest, is = i :: rest ∧ (g (f (aloneView d n) i)).solo platform rest d n none = some x := by
  cases is with
  | nil => simp [query, Prog.bind, Prog.solo] at h
  | cons i rest => exact ⟨i, rest, rfl, h⟩

theorem solo_exec_bind {ws : View Store → Input → List Write} {f : View Store → Input → α}
    {g : α → Program β} {i : Input} (hvalid : platform.validAll d (ws (aloneView d n) i) = true) :
    ((exec ws f).bind g).solo platform (i :: is) d n none =
      (g (f (aloneView d n) i)).solo platform is (platform.applyAll d (ws (aloneView d n) i))
        (n + (ws (aloneView d n) i).length) none :=
  if_pos hvalid

/-- A program that starts with a write has made it. -/
theorem solo_exec_inv {ws : View Store → Input → List Write} {f : View Store → Input → α}
    {g : α → Program β} {x : Except Failure β × Store × ℕ}
    (h : ((exec ws f).bind g).solo platform is d n none = some x) :
    ∃ i rest, is = i :: rest ∧ (g (f (aloneView d n) i)).solo platform rest
      (platform.applyAll d (ws (aloneView d n) i)) (n + (ws (aloneView d n) i).length) none = some x := by
  cases is with
  | nil => simp [exec, Prog.bind, Prog.solo] at h
  | cons i rest =>
    by_cases hvalid : platform.validAll d (ws (aloneView d n) i) = true
    · exact ⟨i, rest, rfl, (solo_exec_bind hvalid).symm.trans h⟩
    · have hnone : ((exec ws f).bind g).solo platform (i :: rest) d n none = none := if_neg hvalid
      exact absurd (hnone.symm.trans h) (by simp)

/-- A check passes, or the program stops there. -/
theorem solo_ensure {condition : Bool} {err : Failure} {g : Unit → Program β}
    {x : Except Failure β × Store × ℕ}
    (h : ((ensure condition err).bind g).solo platform is d n none = some x) :
    (condition = true ∧ (g ()).solo platform is d n none = some x) ∨ x.2.1 = d := by
  cases condition with
  | true => exact Or.inl ⟨rfl, h⟩
  | false => exact Or.inr (congrArg (·.2.1) (Option.some.inj h).symm)

/-- The text of a balance, read exactly. -/
theorem numberWith_balanceText (entries : List LedgerEntry) (walletId : String) :
    numberWith id (balanceText entries walletId) = (balanceUnits entries walletId : ℚ) / 10000 := by
  have hbalance := balance_eq { Store.empty with entries := entries } walletId
  obtain ⟨l, hl, hvalue⟩ := Option.map_eq_some_iff.mp hbalance
  rw [numberWith, trim_literal hl, hl]
  exact hvalue

/-- What the wallets add to a balance, read exactly. -/
def exactSum (d : Store) (wallets : List Wallet) : ℚ := (totalUnits d.entries wallets : ℚ) / 10000

theorem exactSum_cons (d : Store) (w : Wallet) (wallets : List Wallet) :
    exactSum d (w :: wallets) = (balanceUnits d.entries w.walletId : ℚ) / 10000 + exactSum d wallets := by
  rw [exactSum, totalUnits_cons, exactSum]
  push_cast
  ring

/-- Adding up runs one statement for each wallet and goes on with the sum. -/
theorem solo_addBalances {g : ℚ → Program β} {x : Except Failure β × Store × ℕ} (wallets : List Wallet)
    (balance : ℚ) :
    (∃ is, ((addBalancesWith id wallets balance).bind g).solo platform is d n none = some x) ↔
      ∃ is, (g (balance + exactSum d wallets)).solo platform is d n none = some x := by
  induction wallets generalizing balance with
  | nil =>
    have hzero : exactSum d [] = 0 := by simp [exactSum, totalUnits]
    rw [hzero, add_zero]
    exact Iff.rfl
  | cons w wallets ih =>
    have hrest := ih (balance + (balanceUnits d.entries w.walletId : ℚ) / 10000)
    rw [add_assoc, ← exactSum_cons] at hrest
    rw [← hrest]
    have hstep : ∀ i rest, ((addBalancesWith id (w :: wallets) balance).bind g).solo platform
        (i :: rest) d n none = ((addBalancesWith id wallets (balance +
          (balanceUnits d.entries w.walletId : ℚ) / 10000)).bind g).solo platform rest d n none := by
      intro i rest
      rw [← numberWith_balanceText]
      rfl
    constructor
    · rintro ⟨is, h⟩
      cases is with
      | nil => simp [addBalancesWith, getBalance, query, Prog.bind, Prog.solo] at h
      | cons i rest => exact ⟨rest, (hstep i rest).symm.trans h⟩
    · rintro ⟨is, h⟩
      exact ⟨quiet :: is, (hstep quiet is).trans h⟩

/-- The row that filing a withdrawal inserts. -/
def filedRow (brokerId currency : String) (body : CreateDeposit) (amount : Numeric) (id : ℕ)
    (requestId : String) (createdAt : Instant) : DepositRequest :=
  ⟨⟨id, requestId, .withdrawal, brokerId, amount, currency, body.method, body.reference, body.note,
    createdAt⟩, .pending, none, none⟩

/-- Filing stores the row, or nothing when the amount does not fit the column. -/
theorem fileRequest_stored {brokerId currency missing : String} {body : CreateDeposit}
    {r : Except Failure DepositDto} {d' : Store} {n' : ℕ}
    (h : (fileRequest .withdrawal brokerId currency body missing).solo platform is d n none =
      some (r, d', n')) : d' = d ∨ ∃ amount rowId requestId now, Numeric.insert body.amount = .ok amount ∧
        d' = d.apply (.insertRequest (filedRow brokerId currency body amount rowId requestId now)) := by
  rw [fileRequest, draw] at h
  obtain ⟨i, rest, rfl, hrest⟩ := solo_query_inv h
  cases hamount : Numeric.insert body.amount with
  | error e =>
    rw [hamount] at hrest
    obtain ⟨-, hstore, -⟩ : Except.error e = r ∧ d = d' ∧ n = n' := by
      simpa [StatementProgram.ofExcept, Prog.bind, Prog.solo] using hrest
    exact Or.inl hstore.symm
  | ok amount =>
    rw [hamount] at hrest
    obtain ⟨j, later, rfl, hread⟩ := solo_exec_inv hrest
    obtain ⟨k, last, rfl, hfound⟩ := solo_query_inv hread
    refine Or.inr ⟨amount, n, i.id 0, j.now, rfl, ?_⟩
    split at hfound
    · obtain ⟨-, hstore, -⟩ := by simpa [Prog.solo] using hfound
      exact hstore.symm
    · obtain ⟨-, hstore, -⟩ := by simpa [Prog.solo] using hfound
      exact hstore.symm

/-- An amount that fits the column is stored when the new id is not taken. -/
theorem fileRequest_stores {brokerId currency missing : String} {body : CreateDeposit}
    {amount : Numeric} (hamount : Numeric.insert body.amount = .ok amount) (d : Store) (n : ℕ) :
    ∃ is r n' rowId requestId now, (fileRequest .withdrawal brokerId currency body missing).solo platform
      is d n none = some (r,
        d.apply (.insertRequest (filedRow brokerId currency body amount rowId requestId now)), n') := by
  obtain ⟨requestId, hfresh⟩ := Infinite.exists_notMem_finset (d.requests.map (·.requestId)).toFinset
  have hnone : rowsAt (·.requestId) requestId d.requests = [] := by
    refine List.filter_eq_nil_iff.mpr fun row hrow hid => hfresh ?_
    exact List.mem_toFinset.mpr (List.mem_map.mpr ⟨row, hrow, of_decide_eq_true hid⟩)
  have hvalid : platform.validAll d
      [.insertRequest (filedRow brokerId currency body amount n requestId 0)] = true := by
    simp [platform, Store.valid, filedRow, hnone]
  refine ⟨[drawing requestId, quiet, quiet], ?_⟩
  rw [fileRequest, draw, bind_eq, solo_query_bind, hamount]
  change ∃ r n' rowId requestId now, ((exec _ _).bind _).solo platform _ d _ none = _
  rw [solo_exec_bind, bind_eq, solo_query_bind]
  · split
    · exact ⟨_, _, n, requestId, 0, rfl⟩
    · exact ⟨_, _, n, requestId, 0, rfl⟩
  · exact hvalid

/-- A request within the cap is filed. -/
theorem fileCapped_passes {floor : JsNumber} {brokerId currency : String} {body : CreateDeposit}
    {balance : ℚ} (h : numberWith id body.amount ≤ max 0 (balance - floor.value) + 1 / 10 ^ 9) :
    fileCapped id floor brokerId currency body balance =
      fileRequest .withdrawal brokerId currency body "Withdrawal request not persisted" := by
  have hensure : ∀ err, ensure (decide (numberWith id body.amount ≤
      id (max 0 (id (balance - floor.value)) + id (1 / 10 ^ 9)))) err = .done () := fun err =>
    if_pos (decide_eq_true h)
  rw [fileCapped, bind_eq, hensure]
  rfl

/-- What a request that is filed under the cap stores. -/
theorem fileCapped_stored {floor : JsNumber} {brokerId currency : String} {body : CreateDeposit}
    {balance : ℚ} {r : Except Failure DepositDto} {d' : Store} {n' : ℕ}
    (h : (fileCapped id floor brokerId currency body balance).solo platform is d n none =
      some (r, d', n')) : d' = d ∨ (numberWith id body.amount ≤ max 0 (balance - floor.value) + 1 / 10 ^ 9 ∧
        ∃ amount rowId requestId now, Numeric.insert body.amount = .ok amount ∧
        d' = d.apply (.insertRequest (filedRow brokerId currency body amount rowId requestId now))) := by
  rw [fileCapped, bind_eq] at h
  rcases solo_ensure h with ⟨hcap, hfile⟩ | hsame
  · rcases fileRequest_stored hfile with hsame | hrow
    · exact Or.inl hsame
    · exact Or.inr ⟨of_decide_eq_true hcap, hrow⟩
  · exact Or.inl hsame

end Steps

section Arithmetic

variable {floor : ℚ} {own whole : ℤ}

/-- Every amount within the cap of the whole balance is within the own balance
above the floor. -/
def WithinOwn (floor : ℚ) (own whole : ℤ) : Prop :=
  ∀ k : ℤ, 0 ≤ k → k < 10 ^ 20 → (k : ℚ) / 10000 ≤ max 0 ((whole : ℚ) / 10000 - floor) + 1 / 10 ^ 9 →
    (k : ℚ) / 10000 ≤ (own : ℚ) / 10000 - floor

/-- The least number of ten-thousandths above a bound. -/
theorem next_amount (x : ℚ) : x < ((⌊x * 10000⌋ + 1 : ℤ) : ℚ) / 10000 ∧
    ((⌊x * 10000⌋ + 1 : ℤ) : ℚ) / 10000 ≤ x + 1 / 10000 := by
  have hlow := Int.floor_le (x * 10000)
  have hhigh := Int.lt_floor_add_one (x * 10000)
  push_cast
  constructor <;> linarith

theorem within_covers (h : WithinOwn floor own whole) : floor ≤ (own : ℚ) / 10000 := by
  have hzero := h 0 le_rfl (by norm_num) (by
    have := le_max_left (0 : ℚ) ((whole : ℚ) / 10000 - floor)
    norm_num
    linarith)
  norm_num at hzero
  linarith

/-- When nothing is stored above the balance, the rest adds nothing. -/
theorem within_others (h : WithinOwn floor own whole) (hroom : (own : ℚ) / 10000 - floor < maxAmount) :
    whole ≤ own ∧ (whole = own → Tolerant ((own : ℚ) / 10000 - floor)) := by
  have hcovers := within_covers h
  have hpositive : 0 ≤ ((own : ℚ) / 10000 - floor) * 10000 := by linarith
  -- the next amount after the balance above the floor still fits the column
  have hfits : ∀ k : ℤ, (k : ℚ) / 10000 ≤ (own : ℚ) / 10000 - floor + 1 / 10000 → k < 10 ^ 20 := by
    intro k hk
    have hlt : (k : ℚ) < 10 ^ 20 := by
      rw [maxAmount] at hroom
      linarith
    exact_mod_cast hlt
  constructor
  · by_contra hmore
    have hgap : (own : ℚ) + 1 ≤ whole := by exact_mod_cast Int.add_one_le_iff.mpr (not_le.mp hmore)
    obtain ⟨habove, hnext⟩ := next_amount ((own : ℚ) / 10000 - floor)
    have hcap : ((⌊((own : ℚ) / 10000 - floor) * 10000⌋ + 1 : ℤ) : ℚ) / 10000 ≤
        max 0 ((whole : ℚ) / 10000 - floor) + 1 / 10 ^ 9 := by
      have := le_max_right (0 : ℚ) ((whole : ℚ) / 10000 - floor)
      linarith
    have hwithin := h _ (by have := Int.floor_nonneg.mpr hpositive; omega) (hfits _ hnext) hcap
    linarith
  · rintro rfl k hk
    by_contra hnear
    have hnear := not_lt.mp hnear
    have hnonneg : 0 ≤ k := by
      have hpos : (0 : ℚ) < k := by linarith
      exact_mod_cast hpos.le
    have hwithin := h k hnonneg (hfits k (by linarith)) (by
      have := le_max_right (0 : ℚ) ((whole : ℚ) / 10000 - floor)
      linarith)
    linarith

/-- Covering the floor without the others is enough. -/
theorem within_of_others (hcovers : floor ≤ (own : ℚ) / 10000) (hle : whole ≤ own)
    (htolerant : whole = own → Tolerant ((own : ℚ) / 10000 - floor)) : WithinOwn floor own whole := by
  intro k hk _ hcap
  by_contra hover
  have hover := not_le.mp hover
  have hpos : (1 : ℚ) ≤ k := by
    have hlt : (0 : ℚ) < k := by linarith
    exact_mod_cast hlt
  rcases eq_or_lt_of_le hle with rfl | hlt
  · have hbeyond := htolerant rfl k hover
    rw [max_eq_right (by linarith)] at hcap
    linarith
  · have hgap : (whole : ℚ) + 1 ≤ own := by exact_mod_cast hlt
    have hmax : max 0 ((whole : ℚ) / 10000 - floor) + 1 / 10 ^ 9 < (k : ℚ) / 10000 := by
      rcases max_cases (0 : ℚ) ((whole : ℚ) / 10000 - floor) with ⟨heq, -⟩ | ⟨heq, -⟩ <;>
        rw [heq] <;> linarith
    linarith

end Arithmetic

section Requests

variable {floor : JsNumber} {user : Option CurrentUser} {brokerId : String} {d : Store} {body : Json}

/-- The sum does not depend on the order of the wallets. -/
theorem exactSum_perm {wallets wallets' : List Wallet} (h : wallets.Perm wallets') :
    exactSum d wallets = exactSum d wallets' := by
  rw [exactSum, exactSum, totalUnits, totalUnits, (h.map _).sum_eq]

/-- What a stored request has passed. -/
theorem stored_passed (hscope : scope user none = .ok brokerId) {is : List Input} {n n' : ℕ}
    {r : Except Failure DepositDto} {d' : Store} {row : DepositRequest}
    (h : (createWithdrawalRequestWith id floor user body).solo platform is d n none = some (r, d', n'))
    (hstored : d'.requests = d.requests ++ [row]) :
    ∃ (fields : CreateDeposit) (wallets : List Wallet), createDepositSchema body = .ok fields ∧
      wallets.Perm (d.wallets.filter fun w => w.brokerId = brokerId) ∧
      Numeric.insert fields.amount = .ok row.amount ∧ row.brokerId = brokerId ∧
      row.currency = (wallets.head?.map (·.currency)).getD "USD" ∧
      numberWith id fields.amount ≤ max 0 (wholeBalance d brokerId - floor.value) + 1 / 10 ^ 9 := by
  have hunchanged : d' ≠ d := by
    rintro rfl
    have hlen := congrArg List.length hstored
    simp at hlen
  rw [createWithdrawalRequestWith, bind_eq] at h
  cases hbody : createDepositSchema body with
  | error e =>
    obtain ⟨-, hstore, -⟩ : Except.error e = r ∧ d = d' ∧ n = n' := by
      simpa [hbody, StatementProgram.ofExcept, Prog.bind, Prog.solo] using h
    exact absurd hstore.symm hunchanged
  | ok fields =>
    rw [hbody, hscope] at h
    obtain ⟨i, rest, rfl, hread⟩ := solo_query_inv h
    have hperm := anyOrder_perm (d.wallets.filter fun w => w.brokerId = brokerId) i.pick
    obtain ⟨later, hsum⟩ := (solo_addBalances _ _).mp ⟨rest, hread⟩
    have hwhole : (0 : ℚ) + exactSum d (anyOrder (d.wallets.filter fun w => w.brokerId = brokerId) i.pick) =
        wholeBalance d brokerId := by
      rw [zero_add, exactSum_perm hperm]
      rfl
    refine ⟨fields, _, rfl, hperm, ?_⟩
    simp only [aloneView] at hsum
    rw [hwhole] at hsum
    rcases fileCapped_stored hsum with hsame | ⟨hcap, amount, rowId, requestId, now, hamount, rfl⟩
    · exact absurd hsame hunchanged
    · obtain rfl := List.singleton_injective (List.append_cancel_left hstored)
      exact ⟨hamount, rfl, rfl, hcap⟩

/-- The body of a request for an amount. -/
def amountBody (amount : Numeric) : Json := .obj [("amount", .str amount.text)]

/-- An amount that is not negative is accepted. -/
theorem accepted_amount {amount : Numeric} (h : 0 ≤ amount.units) :
    createDepositSchema (amountBody amount) = .ok ⟨amount.text, "manual", none, none⟩ := by
  have htext : amount.text.toList = unsignedText amount.units.natAbs 4 := by
    simp [Numeric.text, Literal.fixed, not_lt.mpr h]
  have hamount : isAmount amount.text = true := by
    simp [isAmount, htext, unsigned?_unsignedText]
  simp [createDepositSchema, createDepositFields, amountBody, Json.field?, Json.string?, hamount,
    methodField, optionalText]

/-- Ten-thousandths as the database prints them, read exactly. -/
theorem numberWith_units (units : ℤ) :
    numberWith id (String.ofList (Literal.fixed ⟨decide (units < 0), units.natAbs, 4⟩)) =
      (units : ℚ) / 10000 := by
  have hl : literal? (String.ofList (Literal.fixed ⟨decide (units < 0), units.natAbs, 4⟩)).toList =
      some ⟨decide (units < 0), units.natAbs, 4⟩ := by
    rw [String.toList_ofList, literal?_fixed]
  rw [numberWith, trim_literal hl, hl]
  exact litValue_units units

/-- The text of an amount reads back as the amount. -/
theorem numberWith_text (amount : Numeric) : numberWith id amount.text = amount.value :=
  numberWith_units amount.units

/-- Any row may come first. -/
theorem anyOrder_head {ρ : Type} {rows : List ρ} {r : ρ} (hr : r ∈ rows) :
    ∃ code, (anyOrder rows code).head? = some r := by
  induction rows with
  | nil => simp at hr
  | cons first rows ih =>
    rcases List.mem_cons.mp hr with rfl | hr
    · exact ⟨0, by simp [anyOrder]⟩
    · obtain ⟨code, hcode⟩ := ih hr
      have hpos := List.length_pos_of_mem hr
      have hdiv : (code * (rows.length + 1) + 1) / (rows.length + 1) = code := by
        rw [Nat.mul_comm, Nat.mul_add_div (Nat.succ_pos _), Nat.div_eq_of_lt (by omega), Nat.add_zero]
      have hmod : (code * (rows.length + 1) + 1) % (rows.length + 1) = 1 := by
        rw [Nat.mul_comm, Nat.mul_add_mod, Nat.mod_eq_of_lt (by omega)]
      refine ⟨code * (rows.length + 1) + 1, ?_⟩
      rw [anyOrder, hdiv, hmod]
      cases horder : anyOrder rows code with
      | nil => simp [horder] at hcode
      | cons w ws => simpa [horder] using hcode

/-- The wallets may come in an order that files the request in any of its currencies. -/
theorem head_currency {currency : String} (h : currency ∈ requestCurrencies d brokerId) :
    ∃ code, ((anyOrder (d.wallets.filter fun w => w.brokerId = brokerId) code).head?.map
      (·.currency)).getD "USD" = currency := by
  rw [requestCurrencies] at h
  split at h
  · rename_i hnone
    obtain rfl := List.mem_singleton.mp h
    exact ⟨0, by rw [hnone]; rfl⟩
  · obtain ⟨w, hw, rfl⟩ := List.mem_map.mp h
    obtain ⟨code, hcode⟩ := anyOrder_head hw
    exact ⟨code, by rw [hcode]; rfl⟩

/-- An amount within the cap of the whole balance is stored in any of the
currencies. -/
theorem stores_amount (hscope : scope user none = .ok brokerId) {currency : String}
    (hcurrency : currency ∈ requestCurrencies d brokerId) {amount : Numeric} (hpos : 0 ≤ amount.units)
    (hcap : amount.value ≤ max 0 (wholeBalance d brokerId - floor.value) + 1 / 10 ^ 9) (n : ℕ) :
    ∃ is r n' rowId requestId now, (createWithdrawalRequestWith id floor user (amountBody amount)).solo
      platform is d n none = some (r, d.apply (.insertRequest (filedRow brokerId currency
        ⟨amount.text, "manual", none, none⟩ amount rowId requestId now)), n') := by
  obtain ⟨code, hcode⟩ := head_currency hcurrency
  have hperm := anyOrder_perm (d.wallets.filter fun w => w.brokerId = brokerId) code
  have hwhole : (0 : ℚ) + exactSum d (anyOrder (d.wallets.filter fun w => w.brokerId = brokerId) code) =
      wholeBalance d brokerId := by
    rw [zero_add, exactSum_perm hperm]
    rfl
  obtain ⟨is, r, n', rowId, requestId, now, hfile⟩ := @fileRequest_stores brokerId currency
    "Withdrawal request not persisted" ⟨amount.text, "manual", none, none⟩ amount (insert_text amount) d n
  rw [← fileCapped_passes (by rw [numberWith_text]; exact hcap), ← hwhole] at hfile
  obtain ⟨later, hsum⟩ := (solo_addBalances _ 0).mpr ⟨is, hfile⟩
  refine ⟨⟨0, [], code⟩ :: later, r, n', rowId, requestId, now, ?_⟩
  rw [createWithdrawalRequestWith, bind_eq, accepted_amount hpos, hscope]
  rw [← hsum, ← hcode]
  rfl

/-- The first of the wallets is in one of the currencies. -/
theorem currency_mem {wallets : List Wallet}
    (h : wallets.Perm (d.wallets.filter fun w => w.brokerId = brokerId)) :
    (wallets.head?.map (·.currency)).getD "USD" ∈ requestCurrencies d brokerId := by
  rw [requestCurrencies]
  split
  · rename_i hnone
    rw [hnone] at h
    rw [h.eq_nil]
    exact List.mem_singleton.mpr rfl
  · rename_i hsome
    cases wallets with
    | nil => exact absurd h.symm.eq_nil hsome
    | cons w ws => exact List.mem_map.mpr ⟨w, h.subset List.mem_cons_self, rfl⟩

/-- The amount of an accepted body is a decimal text. -/
theorem accepted_isAmount {fields : CreateDeposit} (h : createDepositSchema body = .ok fields) :
    isAmount fields.amount = true := by
  simp only [createDepositSchema] at h
  split at h
  · obtain rfl := Except.ok.inj h
    rename_i fields hfields
    simp only [createDepositFields, Option.bind_eq_bind, Option.bind_eq_some_iff] at hfields
    obtain ⟨amount, hamount, hfields⟩ := hfields
    split at hfields
    · rename_i hdecimal
      simp only [Option.bind_eq_some_iff] at hfields
      obtain ⟨method, hmethod, reference, hreference, note, hnote, rfl⟩ := by
        simpa [Option.bind_eq_some_iff] using hfields
      exact hdecimal
    · simp at hfields
  · simp at h

/-- Covering, in ten-thousandths. -/
theorem covered_iff_within {currency : String} : Covered floor d brokerId currency ↔
    WithinOwn floor.value (totalUnits d.entries (walletsIn brokerId currency d.wallets))
      (totalUnits d.entries (d.wallets.filter fun w => w.brokerId = brokerId)) := by
  have hle : wholeBalance d brokerId ≤ brokerBalance d brokerId currency ↔
      totalUnits d.entries (d.wallets.filter fun w => w.brokerId = brokerId) ≤
        totalUnits d.entries (walletsIn brokerId currency d.wallets) := by
    rw [wholeBalance, brokerBalance, div_le_div_iff_of_pos_right (by norm_num)]
    exact Int.cast_le
  have heq : wholeBalance d brokerId = brokerBalance d brokerId currency ↔
      totalUnits d.entries (d.wallets.filter fun w => w.brokerId = brokerId) =
        totalUnits d.entries (walletsIn brokerId currency d.wallets) := by
    rw [wholeBalance, brokerBalance, div_left_inj' (by norm_num)]
    exact Int.cast_inj
  constructor
  · rintro ⟨hcovers, hothers | hlarge⟩
    · exact within_of_others hcovers (hle.mp hothers.1) fun h => hothers.2 (heq.mpr h)
    · intro k _ hk _
      have hmax : (k : ℚ) ≤ 10 ^ 20 - 1 := by exact_mod_cast Int.le_sub_one_of_lt hk
      rw [maxAmount] at hlarge
      exact le_trans (by linarith) hlarge
  · intro h
    refine ⟨within_covers h, ?_⟩
    rcases lt_or_ge (brokerBalance d brokerId currency - floor.value) maxAmount with hroom | hlarge
    · obtain ⟨hwhole, htolerant⟩ := within_others h hroom
      exact Or.inl ⟨hle.mpr hwhole, fun hsame => htolerant (heq.mp hsame)⟩
    · exact Or.inr hlarge

end Requests

/-- A credit of an amount to a wallet of the broker. -/
def credit (id : ℕ) (entryId walletId currency : String) (amount : Numeric) : LedgerEntry :=
  ⟨id, entryId, walletId, .credit, amount, currency, .adjustment, "R", "deposit"⟩

/-- A wallet with 100 dollars and one with 20000 in another currency. -/
def twoWallets (other : String) : Store :=
  { Store.empty with
    wallets := [⟨1, "W1", "B1", "USD"⟩, ⟨2, "W2", "B1", other⟩]
    entries := [credit 3 "E1" "W1" "USD" ⟨1000000, by norm_num⟩,
      credit 4 "E2" "W2" other ⟨200000000, by norm_num⟩] }

/-- The request of 10000 that the platform stores, with the doubles it computes in. -/
theorem dollars_from_euros : ∃ inputs r d' n' row,
    (createWithdrawalRequest fiveThousand (some brokerUser) (.obj [("amount", .str "10000")])).solo platform
      inputs (twoWallets "EUR") 0 none = some (r, d', n') ∧ d'.requests = [row] ∧
    row.currency = "USD" ∧ row.amount.value = 10000 ∧ brokerBalance (twoWallets "EUR") "B1" "USD" = 100 ∧
    ¬ CappedPerCurrency toDouble fiveThousand (some brokerUser) (twoWallets "EUR") := by
  have hcheck : ((createWithdrawalRequest fiveThousand (some brokerUser)
      (.obj [("amount", .str "10000")])).solo platform [quiet, quiet, quiet, drawing "R1", quiet, quiet]
      (twoWallets "EUR") 0 none).any (fun x => x.2.1.requests.map (fun row =>
        (row.brokerId, row.currency, row.amount.value)) = [("B1", "USD", 10000)]) = true := by
    decide +kernel
  obtain ⟨⟨r, d', n'⟩, hrun, hrows⟩ := (Option.any_eq_true ..).mp hcheck
  obtain ⟨row, hrow, hfields⟩ := List.map_eq_singleton_iff.mp (of_decide_eq_true hrows)
  obtain ⟨hbroker, hcurrency, hamount⟩ : row.brokerId = "B1" ∧ row.currency = "USD" ∧
      row.amount.value = 10000 := by simpa using hfields
  have hbalance : brokerBalance (twoWallets "EUR") "B1" "USD" = 100 := by decide +kernel
  refine ⟨_, r, d', n', row, hrun, hrow, hcurrency, hamount, hbalance, fun hcapped => ?_⟩
  rw [← createWithdrawalRequestWith_toDouble] at hrun
  have hwithin := hcapped _ _ _ _ _ _ hrun row hrow
  rw [hbroker, hcurrency, hamount, hbalance, fiveThousand] at hwithin
  norm_num at hwithin

/-- On exact decimals, withdrawal requests are capped in their own currency
exactly when every currency that a request may be filed in is covered. -/
theorem capped_iff_covered (hscope : scope user none = .ok brokerId) :
    CappedPerCurrency id floor user d ↔
      ∀ currency ∈ requestCurrencies d brokerId, Covered floor d brokerId currency := by
  simp only [covered_iff_within]
  constructor
  · intro h currency hcurrency k hk hfits hcap
    have hbound : k.natAbs < 10 ^ 20 := by omega
    let amount : Numeric := ⟨k, hbound⟩
    obtain ⟨is, r, n', rowId, requestId, now, hrun⟩ := @stores_amount floor user brokerId d hscope currency
      hcurrency amount hk hcap 0
    exact h _ is 0 r _ n' hrun (filedRow brokerId currency ⟨amount.text, "manual", none, none⟩ amount rowId
      requestId now) rfl
  · intro h body is n r d' n' hrun row hstored
    obtain ⟨fields, wallets, hbody, hperm, hamount, hbroker, hcurrency, hcap⟩ :=
      stored_passed hscope hrun hstored
    obtain ⟨l, hl, hpositive, hscale⟩ := isAmount_literal (accepted_isAmount hbody)
    have hvalue : row.amount.value = litValue l := insert_value hl hscale hamount
    have hread : numberWith id fields.amount = row.amount.value := by
      rw [numberWith, trim_literal hl, hl, hvalue]
      rfl
    have hnonneg : 0 ≤ row.amount.units := by
      have hlit : 0 ≤ row.amount.value := by
        rw [hvalue, litValue, hpositive, if_neg Bool.false_ne_true, one_mul]
        positivity
      rw [Numeric.value] at hlit
      have hunits : (0 : ℚ) ≤ row.amount.units := by linarith
      exact_mod_cast hunits
    have hmember : row.currency ∈ requestCurrencies d brokerId := by
      rw [hcurrency]
      exact currency_mem hperm
    rw [hread] at hcap
    have hbound := row.amount.bound
    rw [hbroker]
    exact h row.currency hmember row.amount.units hnonneg (by omega) hcap

/-- With both wallets in dollars every request is capped, with the second one
in euros not. -/
theorem dollars_only : CappedPerCurrency id fiveThousand (some brokerUser) (twoWallets "USD") ∧
    ¬ CappedPerCurrency id fiveThousand (some brokerUser) (twoWallets "EUR") := by
  have hscope : scope (some brokerUser) none = .ok "B1" := by decide
  constructor
  · refine (capped_iff_covered hscope).mpr fun currency hcurrency => ?_
    obtain rfl : currency = "USD" := by
      simpa [requestCurrencies, twoWallets] using hcurrency
    have hbalance : brokerBalance (twoWallets "USD") "B1" "USD" = 20100 := by decide +kernel
    have hwhole : wholeBalance (twoWallets "USD") "B1" = 20100 := by decide +kernel
    refine ⟨by rw [hbalance, fiveThousand]; norm_num, Or.inl ⟨by rw [hbalance, hwhole], fun _ k hk => ?_⟩⟩
    rw [hbalance, fiveThousand] at hk ⊢
    have hnext : (151000001 : ℚ) ≤ k := by
      have hlt : (151000000 : ℚ) < k := by linarith
      exact_mod_cast hlt
    linarith
  · intro hcapped
    have hcovered := (capped_iff_covered hscope).mp hcapped "USD" (by decide)
    have hbalance : brokerBalance (twoWallets "EUR") "B1" "USD" = 100 := by decide +kernel
    have hcovers := hcovered.covers
    rw [hbalance, fiveThousand] at hcovers
    norm_num at hcovers

end LpPlatform.CurrencyCaps
