import LpPlatform.Ledger

/-!
# Wallet adjustments

One handler posts a wallet adjustment for the API and for the worker. Both
legs go to the broker's own wallet, the requested direction first and the
contra leg after it. What a payload holds is not checked before the handler
reads it, so its fields are values of the language.
-/

namespace LpPlatform.WalletAdjust

open Amounts InterferenceLogic JsValues Ledger RowStore Sessions StatementProgram Tables

mutual

/-- A value inside a template string. -/
def templateText : Json → String
  | .null => "null"
  | .bool b => if b then "true" else "false"
  | .num n => n.text
  | .str s => s
  | .arr items => ",".intercalate (itemTexts items)
  | .obj _ => "[object Object]"

/-- The items of an array inside a template string. -/
def itemTexts : List Json → List String
  | [] => []
  | item :: items => (match item with | .null => "" | other => templateText other) :: itemTexts items

end

/-- A field inside a template string. -/
def fieldText : Option Json → String
  | none => "undefined"
  | some value => templateText value

/-- The fields the handler reads, undefined where the payload has none. -/
structure WalletAdjustPayload where
  brokerId : Option Json
  direction : Option Json
  amount : Option Json
  currency : Option Json
  reason : Option Json

/-- Read the fields of a payload of unknown shape. -/
def WalletAdjustPayload.ofJson : Json → Except Failure WalletAdjustPayload
  | .null => .error (.typeError "Cannot read properties of null (reading 'amount')")
  | payload =>
    .ok ⟨payload.field? "brokerId", payload.field? "direction", payload.field? "amount",
      payload.field? "currency", payload.field? "reason"⟩

/-- What the handler returns. -/
structure WalletAdjustResult where
  entryIds : List String
  walletId : String
  referenceId : String

/-- The direction of the contra leg. -/
def contra (direction : Option Json) : Option Json :=
  match direction with
  | some (.str "DEBIT") => some (.str "CREDIT")
  | _ => some (.str "DEBIT")

/-- Post a wallet adjustment as two legs on the broker's wallet. -/
def executeWalletAdjust (payload : WalletAdjustPayload) (ops : LedgerOps) :
    Program WalletAdjustResult := do
  let amount ← ofExcept (Money.ofJson payload.amount)
  if amount.isZero || amount.isNegative then
    .throw (.error s!"executeWalletAdjust: amount must be > 0, got {fieldText payload.amount}")
  else
    let walletId ← ops.findOrCreateWallet payload.brokerId payload.currency
    let referenceId ← draw (Input.id · 0)
    let canonicalAmount := amount.toString
    let entryIds ← ops.postPair
      { walletId := walletId
        direction := payload.direction
        amount := canonicalAmount
        currency := payload.currency
        referenceType := .adjustment
        referenceId := referenceId
        description := s!"admin adjust: {fieldText payload.reason}" }
      { walletId := walletId
        direction := contra payload.direction
        amount := canonicalAmount
        currency := payload.currency
        referenceType := .adjustment
        referenceId := referenceId
        description := s!"admin adjust (contra): {fieldText payload.reason}" }
    return ⟨entryIds, walletId, referenceId⟩

/-- The other direction. -/
def opposite : LedgerDirection → LedgerDirection
  | .debit => .credit
  | .credit => .debit

/-- The two entries of an adjustment and the wallet they are posted to. -/
structure AdjustPair (D : Driver) (payload : WalletAdjustPayload) (amount : Money)
    (wallet : Wallet) (referenceId : String) (a b : LedgerEntry) : Prop where
  parsed : Money.ofJson payload.amount = .ok amount
  positive : (amount.isZero || amount.isNegative) = false
  broker : payload.brokerId.bind D.text = some wallet.brokerId
  unit : payload.currency.bind D.text = some wallet.currency
  walletA : a.walletId = wallet.walletId
  walletB : b.walletId = wallet.walletId
  directionA : D.direction payload.direction = .ok a.direction
  directionB : b.direction = opposite a.direction
  amountA : Numeric.insert amount.toString = .ok a.amount
  amountB : b.amount = a.amount
  currencyA : a.currency = wallet.currency
  currencyB : b.currency = wallet.currency
  typeA : a.referenceType = .adjustment
  typeB : b.referenceType = .adjustment
  referenceA : a.referenceId = referenceId
  referenceB : b.referenceId = referenceId

section Rules

variable {C : Contract platform} {t : ℕ} {T : Txn Store Write} {d : Store} {n : ℕ} {D : Driver}
variable {Q : WalletAdjustResult → Assertion Store Write} {E : Failure → Assertion Store Write}
variable {ops : LedgerOps} {payload : WalletAdjustPayload}

theorem direction_cases {direction : Option Json} {x : LedgerDirection}
    (h : D.direction direction = .ok x) :
    (x = .debit ∧ direction = some (.str "DEBIT")) ∨
      (x = .credit ∧ direction = some (.str "CREDIT")) := by
  simp only [Driver.direction] at h
  split at h
  · rename_i hword
    obtain ⟨j, rfl, hj⟩ := Option.bind_eq_some_iff.mp hword
    exact Or.inl ⟨(Except.ok.inj h).symm, by rw [D.text_word j _ hj (Or.inl rfl)]⟩
  · rename_i hword
    obtain ⟨j, rfl, hj⟩ := Option.bind_eq_some_iff.mp hword
    exact Or.inr ⟨(Except.ok.inj h).symm, by rw [D.text_word j _ hj (Or.inr rfl)]⟩
  · simp at h
  · simp at h

/-- The contra leg has the other direction. -/
theorem direction_contra {direction : Option Json} {x y : LedgerDirection}
    (hx : D.direction direction = .ok x) (hy : D.direction (contra direction) = .ok y) :
    y = opposite x := by
  rcases direction_cases hx with ⟨rfl, rfl⟩ | ⟨rfl, rfl⟩
  · rcases direction_cases hy with ⟨rfl, hword⟩ | ⟨rfl, _⟩
    · simp [contra] at hword
    · rfl
  · rcases direction_cases hy with ⟨rfl, _⟩ | ⟨rfl, hword⟩
    · rfl
    · simp [contra] at hword

/-- What the two legs of an adjustment are stored as. -/
theorem adjustPair_of_rows {amount : Money} {wallet : Wallet} {referenceId : String}
    {legA legB : PostingLeg} {a b : LedgerEntry} (hparsed : Money.ofJson payload.amount = .ok amount)
    (hpos : (amount.isZero || amount.isNegative) = false)
    (hbroker : payload.brokerId.bind D.text = some wallet.brokerId)
    (hunit : payload.currency.bind D.text = some wallet.currency)
    (hrows : RowsFor D legA legB a b)
    (hA : legA = ⟨wallet.walletId, payload.direction, amount.toString, payload.currency, .adjustment,
      referenceId, legA.description⟩)
    (hB : legB = ⟨wallet.walletId, contra payload.direction, amount.toString, payload.currency,
      .adjustment, referenceId, legB.description⟩) :
    AdjustPair D payload amount wallet referenceId a b := by
  obtain ⟨⟨rowA, hrowA, ha⟩, rowB, hrowB, hb⟩ := hrows
  obtain ⟨dirA, amtA, curA, hdirA, hamtA, hcurA, rfl⟩ := entry_ok hrowA
  obtain ⟨dirB, amtB, curB, hdirB, hamtB, hcurB, rfl⟩ := entry_ok hrowB
  rw [hA] at hdirA hamtA hcurA ha
  rw [hB] at hdirB hamtB hcurB hb
  have hdir : dirB = opposite dirA := direction_contra hdirA hdirB
  have hamt : amtB = amtA := Except.ok.inj (hamtB.symm.trans hamtA)
  have hcolA : curA = wallet.currency := Option.some.inj ((column_ok hcurA).symm.trans hunit)
  have hcolB : curB = wallet.currency := Option.some.inj ((column_ok hcurB).symm.trans hunit)
  rw [ha, hb]
  exact ⟨hparsed, hpos, hbroker, hunit, rfl, rfl, hdirA, hdir, hamtA, hamt, hcolA, hcolB, rfl, rfl,
    rfl, rfl⟩

theorem wp_executeWalletAdjust (hops : ops.Meets D) (hE : ∀ e T d n, E e (some T) d n)
    (hQ : ∀ amount wallet referenceId ws a b d₁ n₁ d' n',
      C.Env t (platform.keysOf T.writes) d n d₁ n₁ → WalletFor T d₁ wallet ws →
      C.Env t (platform.keysOf T.writes) d₁ n₁ d' n' → C.inv d' n' →
      AdjustPair D payload amount wallet referenceId a b →
      Q ⟨[a.entryId, b.entryId], wallet.walletId, referenceId⟩
        (some (T.add (ws ++ [.insertEntry a, .insertEntry b]))) d' n') :
    wp C t (executeWalletAdjust payload ops) Q E (some T) d n := by
  rw [executeWalletAdjust, bind_eq, wp_bind]
  refine wp_ofExcept (fun e _ => hE e T d n) fun amount hamount => ?_
  split
  · exact hE _ T d n
  · rename_i hpos
    rw [bind_eq, wp_bind]
    refine hops.findOrCreateWallet hE fun wallet ws d₁ n₁ henv₁ hinv₁ hbroker hunit hwallet => ?_
    rw [bind_eq, wp_bind]
    refine wp_query hE fun v i d₂ n₂ henv₂ hinv₂ hv₂ => ?_
    rw [bind_eq, wp_bind]
    refine hops.postPair hE fun a b d₃ n₃ henv₃ hinv₃ hrows => ?_
    rw [add_add]
    exact hQ amount wallet (i.id 0) ws a b d₁ n₁ d₃ n₃ henv₁ hwallet
      (env_add (env_trans henv₂ henv₃)) hinv₃
      (adjustPair_of_rows hamount (by simpa using hpos) hbroker hunit hrows rfl rfl)

end Rules

/-- A payload whose fields are strings. -/
def WalletAdjustPayload.ofStrings (brokerId direction amount currency reason : String) :
    WalletAdjustPayload :=
  ⟨some (.str brokerId), some (.str direction), some (.str amount), some (.str currency),
    some (.str reason)⟩

/-- The legs of an adjustment cancel out on every wallet. -/
theorem balanceUnits_pair {D : Driver} {payload : WalletAdjustPayload} {amount : Money}
    {wallet : Wallet} {referenceId : String} {a b : LedgerEntry}
    (h : AdjustPair D payload amount wallet referenceId a b) (walletId : String) :
    balanceUnits [a, b] walletId = 0 := by
  have hcancel : signedUnits a + signedUnits b = 0 := by
    cases hdir : a.direction <;> simp [signedUnits, h.directionB, h.amountB, hdir, opposite]
  rw [balanceUnits_cons, balanceUnits_cons, h.walletA, h.walletB, balanceUnits_nil]
  by_cases hw : wallet.walletId = walletId
  · simp only [hw, if_true]
    omega
  · simp [hw]

/-- The handler run alone in a transaction posts one pair of entries. -/
theorem adjust_run {D : Driver} {ops : LedgerOps} (hops : ops.Meets D)
    {payload : WalletAdjustPayload} {inputs : List Input} {d d' : Store} {n n' : ℕ}
    {result : WalletAdjustResult}
    (hrun : (transaction false (executeWalletAdjust payload ops)).solo platform inputs d n none =
      some (.ok result, d', n')) :
    ∃ amount wallet referenceId ws a b, WalletFor (.opened false d) d wallet ws ∧
      AdjustPair D payload amount wallet referenceId a b ∧
      result = ⟨[a.entryId, b.entryId], wallet.walletId, referenceId⟩ ∧
      d' = platform.applyAll d (ws ++ [.insertEntry a, .insertEntry b]) := by
  have hwp : wp (soloContract platform) 0 (transaction false (executeWalletAdjust payload ops))
      (fun r _ x _ => ∃ amount wallet referenceId ws a b,
        WalletFor (.opened false d) d wallet ws ∧
        AdjustPair D payload amount wallet referenceId a b ∧
        r = ⟨[a.entryId, b.entryId], wallet.walletId, referenceId⟩ ∧
        x = platform.applyAll d (ws ++ [.insertEntry a, .insertEntry b]))
      (fun _ _ _ _ => True) none d n := by
    refine wp_transaction false _ (fun _ _ _ => trivial) fun d₀ n₀ henv₀ _ => ?_
    obtain rfl : d₀ = d := env_solo henv₀
    refine wp_executeWalletAdjust hops (fun _ _ _ _ => trivial) ?_
    intro amount wallet referenceId ws a b d₁ n₁ d₂ n₂ henv₁ hwallet henv₂ hinv hpair
    obtain rfl : d₁ = d₀ := env_solo henv₁
    obtain rfl : d₂ = d₁ := env_solo henv₂
    refine wp_commit rfl (fun _ _ _ => trivial) fun d₃ n₃ henv₃ _ _ _ => ?_
    obtain rfl : d₃ = d₂ := env_solo henv₃
    exact ⟨fun v hv => hv.self, amount, wallet, referenceId, ws, a, b, hwallet, hpair, rfl, rfl⟩
  obtain ⟨_, hdone⟩ := solo_of_wp _ .outside rfl hwp hrun
  exact hdone

/-- The text of a direction. -/
def directionText : LedgerDirection → String
  | .debit => "DEBIT"
  | .credit => "CREDIT"

/-- Where and in which direction a payload of strings is posted. -/
theorem pair_strings {D : Driver} {brokerId amount currency reason : String}
    {direction : LedgerDirection} {m : Money} {wallet : Wallet} {referenceId : String}
    {a b : LedgerEntry} (h : AdjustPair D (.ofStrings brokerId (directionText direction) amount
      currency reason) m wallet referenceId a b) :
    wallet.brokerId = brokerId ∧ wallet.currency = currency ∧ a.direction = direction := by
  refine ⟨column_str h.broker, column_str h.unit, ?_⟩
  rcases direction_cases h.directionA with ⟨ha, hword⟩ | ⟨ha, hword⟩ <;>
    cases direction <;> simp [WalletAdjustPayload.ofStrings, directionText] at hword <;> exact ha

/-- The balance of the broker's wallet in the currency has changed by the
given amount and no other broker's balance has changed. -/
def AdjustsBalance (d d' : Store) (brokerId currency : String) (change : ℚ) : Prop :=
  ∀ w ∈ d'.wallets,
    (w.brokerId = brokerId → w.currency = currency →
      balance d' w.walletId = (balance d w.walletId).map (· + change)) ∧
    (w.brokerId ≠ brokerId → balance d' w.walletId = balance d w.walletId)

/-- A ledger with one wallet and no entries. -/
def oneWallet : Store := { Store.empty with wallets := [⟨1, "W1", "B1", "INR"⟩] }

/-- The same ledger with a credit of one hundred posted. -/
def oneCredit : Store :=
  { oneWallet with
    entries :=
      [⟨2, "E1", "W1", .credit, .hundred, "INR", .adjustment, "R1",
          "admin adjust: manual correction"⟩,
        ⟨3, "E2", "W1", .debit, .hundred, "INR", .adjustment, "R1",
          "admin adjust (contra): manual correction"⟩] }

/-- The credit of one hundred, run alone. -/
theorem credit_run : (transaction false (executeWalletAdjust
    (.ofStrings "B1" (directionText .credit) "100" "INR" "manual correction")
      (drizzleLedgerOps plainDriver))).solo platform
        [⟨0, [], 0⟩, ⟨0, ["R1"], 0⟩, ⟨0, ["E1", "E2"], 0⟩] oneWallet 2 none =
      some (.ok ⟨["E1", "E2"], "W1", "R1"⟩, oneCredit, 6) := rfl

/-- The credit commits and the balance of the broker's only wallet in the
currency has not moved. -/
theorem credit_not_adjusted : (∃ inputs n result n', (transaction false (executeWalletAdjust
    (.ofStrings "B1" (directionText .credit) "100" "INR" "manual correction")
      (drizzleLedgerOps plainDriver))).solo platform inputs oneWallet n none =
        some (.ok result, oneCredit, n')) ∧
    (∀ w ∈ oneWallet.wallets, ∀ w' ∈ oneWallet.wallets, w.brokerId = w'.brokerId →
      w.currency = w'.currency → w = w') ∧
    ¬ AdjustsBalance oneWallet oneCredit "B1" "INR" 100 := by
  refine ⟨⟨_, _, _, _, credit_run⟩, by decide, fun h => ?_⟩
  have hmoved := (h ⟨1, "W1", "B1", "INR"⟩ (by decide)).1 rfl rfl
  have hbefore : balanceUnits oneWallet.entries "W1" = 0 := by decide
  have hafter : balanceUnits oneCredit.entries "W1" = 0 := by decide
  rw [balance_eq, balance_eq, hbefore, hafter] at hmoved
  norm_num at hmoved

/-- An adjustment leaves the balance of every wallet as it was, and records
the amount once in the requested direction and once in the other, both on one
wallet of the broker in the currency. -/
theorem walletAdjust_balances {D : Driver} {ops : LedgerOps}
    (hops : ops = drizzleLedgerOps D ∨ ops = pgLedgerOps D)
    {brokerId amount currency reason : String} {direction : LedgerDirection} {m : Money}
    (hamount : Money.new amount = .ok m) (hscale : m.scale ≤ 4) {inputs : List Input}
    {d d' : Store} {n n' : ℕ} {result : WalletAdjustResult}
    (hrun : (transaction false (executeWalletAdjust
      (.ofStrings brokerId (directionText direction) amount currency reason) ops)).solo platform
        inputs d n none = some (.ok result, d', n')) :
    (∀ walletId, balance d' walletId = balance d walletId) ∧
      ∃ wallet a b, wallet ∈ d'.wallets ∧ wallet.brokerId = brokerId ∧
        wallet.currency = currency ∧ d'.entries = d.entries ++ [a, b] ∧
        result.entryIds = [a.entryId, b.entryId] ∧
        a.walletId = wallet.walletId ∧ b.walletId = wallet.walletId ∧
        a.direction = direction ∧ b.direction = opposite direction ∧
        a.amount.value = m.value ∧ b.amount.value = m.value := by
  have hmeets : ops.Meets D := by
    rcases hops with rfl | rfl
    · exact drizzleLedgerOps_meets D
    · exact pgLedgerOps_meets D
  obtain ⟨money, wallet, referenceId, ws, a, b, hwallet, hpair, rfl, rfl⟩ := adjust_run hmeets hrun
  have hmoney : money = m := Except.ok.inj (hpair.parsed.symm.trans hamount)
  have hentries : (platform.applyAll d (ws ++ [.insertEntry a, .insertEntry b])).entries =
      d.entries ++ [a, b] := by
    refine (entryRows.applyAll _ _).trans ?_
    rcases hwallet with ⟨rfl, _⟩ | rfl <;> rfl
  have hmem : wallet ∈ (platform.applyAll d (ws ++ [.insertEntry a, .insertEntry b])).wallets := by
    rcases hwallet with ⟨_, hown⟩ | rfl
    · exact walletRows.mono _ hown
    · simp [Store.apply, platform]
  obtain ⟨hbroker, hunit, hdirection⟩ := pair_strings hpair
  have hvalue : a.amount.value = m.value := by
    have hinsert := hpair.amountA
    rw [hmoney] at hinsert
    exact insert_toString hscale hinsert
  refine ⟨fun walletId => ?_, wallet, a, b, hmem, hbroker, hunit, hentries, rfl, hpair.walletA,
    hpair.walletB, hdirection, ?_, hvalue, ?_⟩
  · rw [balance_eq, balance_eq, hentries, balanceUnits_append, balanceUnits_pair hpair walletId,
      Int.add_zero]
  · rw [hpair.directionB, hdirection]
  · rw [hpair.amountB, hvalue]

/-- The balances after the credit of one hundred. -/
theorem walletAdjust_balances_credit :
    (∀ walletId, balance oneCredit walletId = balance oneWallet walletId) ∧
      Money.new "100" = .ok (ofLiteral ⟨false, 100, 0⟩) :=
  ⟨(walletAdjust_balances (Or.inl rfl) rfl (m := ofLiteral ⟨false, 100, 0⟩) (by decide)
    credit_run).1, rfl⟩

end LpPlatform.WalletAdjust
