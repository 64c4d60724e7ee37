import LpPlatform.PortalReads

/-!
# A broker reads its own rows

Every query of the trades list and of the portal pages depends on the rows of
one broker only, and for a user of a broker it is that broker's. So two states
that agree on the rows of a broker answer its users alike, and a trade that is
shown in detail is one of the broker.
-/

namespace LpPlatform.ReadIsolation

open Amounts BrokerPortal HashChain InterferenceLogic JsValues Ledger PartPrograms PortalReads
open RowStore SessionReplays StatementProgram Tables TradeChain TradesList TwoStates

/-- The orders of a broker. -/
def ordersOf (brokerId : String) (d : Store) : List Order := d.orders.filter fun o => o.brokerId = brokerId

/-- The charges of the trades of a broker. -/
def chargesOf (brokerId : String) (d : Store) : List Charge :=
  d.charges.filter fun c => d.trades.any fun t => t.tradeId = c.tradeId ∧ t.brokerId = brokerId

/-- The wallets of a broker. -/
def walletsOf (brokerId : String) (d : Store) : List Wallet :=
  d.wallets.filter fun w => w.brokerId = brokerId

/-- The entries on the wallets of a broker. -/
def entriesOf (brokerId : String) (d : Store) : List LedgerEntry :=
  d.entries.filter fun e => d.wallets.any fun w => w.walletId = e.walletId ∧ w.brokerId = brokerId

/-- The requests of a broker. -/
def requestsOf (brokerId : String) (d : Store) : List DepositRequest :=
  d.requests.filter fun r => r.brokerId = brokerId

/-- Two states agree on what belongs to a broker. -/
structure SameFor (brokerId : String) (s₁ s₂ : Portal) : Prop where
  orders : ordersOf brokerId s₁.tables = ordersOf brokerId s₂.tables
  trades : tradesOf brokerId s₁.tables.trades = tradesOf brokerId s₂.tables.trades
  charges : chargesOf brokerId s₁.tables = chargesOf brokerId s₂.tables
  wallets : walletsOf brokerId s₁.tables = walletsOf brokerId s₂.tables
  entries : entriesOf brokerId s₁.tables = entriesOf brokerId s₂.tables
  requests : requestsOf brokerId s₁.tables = requestsOf brokerId s₂.tables
  /-- The cached snapshot of its positions. -/
  snapshot : s₁.cache ("positions:" ++ brokerId) = s₂.cache ("positions:" ++ brokerId)

/-- The order of a trade belongs to the broker of the trade. -/
def Matched (d : Store) : Prop :=
  ∀ t ∈ d.trades, ∀ o ∈ d.orders, o.orderId = t.orderId → o.brokerId = t.brokerId

/-- The rows of a broker, and no others. -/
def restrict (brokerId : String) (d : Store) : Store :=
  { Store.empty with
    orders := ordersOf brokerId d
    trades := tradesOf brokerId d.trades
    charges := chargesOf brokerId d
    wallets := walletsOf brokerId d
    entries := entriesOf brokerId d
    requests := requestsOf brokerId d }

/-- Two states that agree have the same rows of the broker. -/
theorem restrict_eq {brokerId : String} {s₁ s₂ : Portal} (h : SameFor brokerId s₁ s₂) :
    restrict brokerId s₁.tables = restrict brokerId s₂.tables := by
  simp only [restrict, h.orders, h.trades, h.charges, h.wallets, h.entries, h.requests]

section Lists

variable {ρ σ : Type}

/-- What a test lets pass needs no test that it implies. -/
theorem filter_implied {rows : List ρ} {p q : ρ → Bool} (h : ∀ r ∈ rows, q r = true → p r = true) :
    (rows.filter p).filter q = rows.filter q := by
  rw [List.filter_filter]
  refine List.filter_congr fun r hr => ?_
  cases hq : q r with
  | false => simp
  | true => simp [h r hr hq]

theorem find?_implied {rows : List ρ} {p q : ρ → Bool} (h : ∀ r ∈ rows, q r = true → p r = true) :
    (rows.filter p).find? q = rows.find? q := by
  rw [← List.head?_filter, filter_implied h, List.head?_filter]

theorem any_implied {rows : List ρ} {p q : ρ → Bool} (h : ∀ r ∈ rows, q r = true → p r = true) :
    (rows.filter p).any q = rows.any q := by
  rw [Bool.eq_iff_iff, List.any_eq_true, List.any_eq_true]
  constructor
  · rintro ⟨r, hr, hq⟩
    exact ⟨r, (List.mem_filter.mp hr).1, hq⟩
  · rintro ⟨r, hr, hq⟩
    exact ⟨r, List.mem_filter.mpr ⟨hr, h r hr hq⟩, hq⟩

/-- Rows that contribute nothing may be left out. -/
theorem flatMap_implied {rows : List ρ} {p : ρ → Bool} {f : ρ → List σ}
    (h : ∀ r ∈ rows, p r = false → f r = []) : (rows.filter p).flatMap f = rows.flatMap f := by
  induction rows with
  | nil => rfl
  | cons r rows ih =>
    have hrest := ih fun x hx => h x (List.mem_cons_of_mem _ hx)
    cases hp : p r with
    | true => rw [List.filter_cons_of_pos hp, List.flatMap_cons, List.flatMap_cons, hrest]
    | false =>
      rw [List.filter_cons_of_neg (by simp [hp]), List.flatMap_cons, h r (List.mem_cons_self ..) hp,
        List.nil_append, hrest]

end Lists

section Queries

variable {brokerId : String} {d : Store}

/-- Filtering the rows of a broker again changes nothing. -/
theorem tradesOf_restrict : tradesOf brokerId (restrict brokerId d).trades = tradesOf brokerId d.trades :=
  filter_implied fun _ _ h => h

theorem mem_tradesOf {t : Trade} : t ∈ tradesOf brokerId d.trades ↔ t ∈ d.trades ∧ t.brokerId = brokerId := by
  simp [tradesOf]

/-- A charge of a trade of the broker is kept. -/
theorem charge_kept {t : Trade} (ht : t ∈ tradesOf brokerId d.trades) {c : Charge}
    (hc : c.tradeId = t.tradeId) :
    (d.trades.any fun t => t.tradeId = c.tradeId ∧ t.brokerId = brokerId) = true := by
  obtain ⟨ht, hbroker⟩ := mem_tradesOf.mp ht
  exact List.any_eq_true.mpr ⟨t, ht, decide_eq_true ⟨hc.symm, hbroker⟩⟩

theorem chargesTotal_restrict {t : Trade} (ht : t ∈ tradesOf brokerId d.trades) :
    chargesTotal (restrict brokerId d) t.tradeId = chargesTotal d t.tradeId := by
  have hkept : ∀ c ∈ d.charges, decide (c.tradeId = t.tradeId) = true →
      (d.trades.any fun t => t.tradeId = c.tradeId ∧ t.brokerId = brokerId) = true :=
    fun c _ hc => charge_kept ht (of_decide_eq_true hc)
  simp only [chargesTotal, restrict, chargesOf, filter_implied hkept, any_implied hkept]

/-- The order of a trade of the broker is kept. -/
theorem orderOf_restrict (hmatched : Matched d) {t : Trade} (ht : t ∈ tradesOf brokerId d.trades) :
    orderOf (restrict brokerId d) t = orderOf d t := by
  obtain ⟨ht, hbroker⟩ := mem_tradesOf.mp ht
  refine find?_implied fun o ho hid => decide_eq_true ?_
  rw [hmatched t ht o ho (of_decide_eq_true hid), hbroker]

theorem tradeListItem_restrict (hmatched : Matched d) {t : Trade}
    (ht : t ∈ tradesOf brokerId d.trades) :
    tradeListItem (restrict brokerId d) t = tradeListItem d t := by
  have horder : ((restrict brokerId d).orders.find? fun o => o.orderId = t.orderId) =
      d.orders.find? fun o => o.orderId = t.orderId := orderOf_restrict hmatched ht
  simp only [tradeListItem, chargesTotal_restrict ht, horder]

/-- A page of trades with what is joined to them. -/
theorem page_restrict (hmatched : Matched d) (q : TradeListQuery) (hbroker : q.brokerId = brokerId) :
    ((findByBroker q (restrict brokerId d)).map fun t => (t.id, tradeListItem (restrict brokerId d) t)) =
      (findByBroker q d).map fun t => (t.id, tradeListItem d t) := by
  have hpage : findByBroker q (restrict brokerId d) = findByBroker q d := by
    rw [findByBroker, findByBroker, hbroker, tradesOf_restrict]
  rw [hpage]
  refine List.map_congr_left fun t ht => ?_
  have hsorted := (List.mem_of_mem_take ht)
  rw [List.mem_insertionSort, List.mem_filter, hbroker] at hsorted
  rw [tradeListItem_restrict hmatched hsorted.1]

theorem brokerageRows_restrict :
    brokerageRows brokerId (restrict brokerId d) = brokerageRows brokerId d := by
  rw [brokerageRows, brokerageRows, tradesOf_restrict, restrict, chargesOf, List.filter_comm]
  refine flatMap_implied fun c _ hnot => ?_
  rw [List.map_eq_nil_iff, List.filter_eq_nil_iff]
  intro t ht hid
  rw [charge_kept ht (of_decide_eq_true hid).symm] at hnot
  simp at hnot

theorem mem_brokerageRows {row : Charge × Trade} (h : row ∈ brokerageRows brokerId d) :
    row.2 ∈ tradesOf brokerId d.trades := by
  obtain ⟨c, -, hrow⟩ := List.mem_flatMap.mp h
  obtain ⟨t, ht, rfl⟩ := List.mem_map.mp hrow
  exact (List.mem_filter.mp ht).1

/-- The listed commissions. -/
theorem commissions_restrict (hmatched : Matched d) :
    ((newest (·.1.id) 500 (brokerageRows brokerId (restrict brokerId d))).map
        (commissionItem (restrict brokerId d))) =
      (newest (·.1.id) 500 (brokerageRows brokerId d)).map (commissionItem d) := by
  rw [brokerageRows_restrict]
  refine List.map_congr_left fun row hrow => ?_
  have hmem := List.mem_of_mem_take hrow
  rw [List.mem_insertionSort] at hmem
  simp only [commissionItem, orderOf_restrict hmatched (mem_brokerageRows hmem)]

/-- An entry on a wallet of the broker is kept. -/
theorem entry_kept {w : Wallet} (hw : w ∈ walletsOf brokerId d) {e : LedgerEntry}
    (he : e.walletId = w.walletId) :
    (d.wallets.any fun w => w.walletId = e.walletId ∧ w.brokerId = brokerId) = true := by
  obtain ⟨hw, hbroker⟩ := List.mem_filter.mp hw
  exact List.any_eq_true.mpr ⟨w, hw, decide_eq_true ⟨he.symm, of_decide_eq_true hbroker⟩⟩

theorem balanceText_restrict {w : Wallet} (hw : w ∈ walletsOf brokerId d) :
    balanceText (restrict brokerId d).entries w.walletId = balanceText d.entries w.walletId := by
  have hkept : ∀ e ∈ d.entries, decide (e.walletId = w.walletId) = true →
      (d.wallets.any fun w => w.walletId = e.walletId ∧ w.brokerId = brokerId) = true :=
    fun e _ he => entry_kept hw (of_decide_eq_true he)
  have hany : ((restrict brokerId d).entries.any fun e => e.walletId = w.walletId) =
      d.entries.any fun e => e.walletId = w.walletId := any_implied hkept
  have hunits : balanceUnits (restrict brokerId d).entries w.walletId =
      balanceUnits d.entries w.walletId := by
    rw [balanceUnits, balanceUnits]
    exact congrArg (fun rows : List LedgerEntry => (rows.map signedUnits).sum) (filter_implied hkept)
  simp only [balanceText, hany, hunits]

/-- The entries joined with the wallets of the broker. -/
theorem entries_restrict : ((restrict brokerId d).entries.flatMap fun e =>
      ((restrict brokerId d).wallets.filter fun w => w.walletId = e.walletId ∧ w.brokerId = brokerId).map
        fun _ => e) =
    d.entries.flatMap fun e =>
      (d.wallets.filter fun w => w.walletId = e.walletId ∧ w.brokerId = brokerId).map fun _ => e := by
  have hwallets : ∀ e : LedgerEntry, ((restrict brokerId d).wallets.filter fun w =>
      w.walletId = e.walletId ∧ w.brokerId = brokerId) =
      d.wallets.filter fun w => w.walletId = e.walletId ∧ w.brokerId = brokerId :=
    fun e => filter_implied fun w _ h => decide_eq_true (of_decide_eq_true h).2
  simp only [hwallets]
  refine flatMap_implied fun e _ hnot => ?_
  rw [List.map_eq_nil_iff, List.filter_eq_nil_iff]
  intro w hw hboth
  rw [List.any_eq_true.mpr ⟨w, hw, hboth⟩] at hnot
  simp at hnot

theorem legsOf_restrict (hmatched : Matched d) :
    legsOf brokerId (restrict brokerId d) = legsOf brokerId d := by
  rw [legsOf, legsOf, tradesOf_restrict]
  refine List.map_congr_left fun t ht => ?_
  rw [orderOf_restrict hmatched ht]

end Queries

/-- A user of a broker acts for that broker, whatever the query names. -/
theorem scope_own {user : CurrentUser} {brokerId b : String} {requested : Option String}
    (hrole : user.role = .brokerUser) (hbroker : user.brokerId = some brokerId)
    (h : scope (some user) requested = .ok b) : b = brokerId := by
  rw [scope, if_pos hrole, hbroker] at h
  split at h
  · rename_i hown
    cases h
    exact (Option.some.inj (Option.filter_eq_some_iff.mp hown).1).symm
  · cases h

section Alike

variable {brokerId : String} {s₁ s₂ : Portal}

/-- What depends on the rows of a broker only is the same in both states. -/
theorem same_of_restrict {α : Type} {f : Store → α} (same : SameFor brokerId s₁ s₂)
    (h₁ : f (restrict brokerId s₁.tables) = f s₁.tables)
    (h₂ : f (restrict brokerId s₂.tables) = f s₂.tables) : f s₁.tables = f s₂.tables := by
  rw [← h₁, ← h₂, restrict_eq same]

/-- The wallets of the broker, and the code that reads their balances. -/
theorem alike_wallets_bind {α : Type} {f : List Wallet → Program α} (same : SameFor brokerId s₁ s₂)
    (hf : ∀ ws : List Wallet, (∀ w ∈ ws, w ∈ walletsOf brokerId s₁.tables) →
      Alike s₁.tables s₂.tables (f ws)) :
    Alike s₁.tables s₂.tables ((findWalletsByBroker brokerId).bind f) := by
  refine alike_query_bind (fun i => congrArg (anyOrder · i.pick) same.wallets) fun i => hf _ ?_
  intro w hw
  exact (anyOrder_perm _ _).mem_iff.mp hw

theorem same_balanceText (same : SameFor brokerId s₁ s₂) {w : Wallet}
    (hw : w ∈ walletsOf brokerId s₁.tables) :
    balanceText s₁.tables.entries w.walletId = balanceText s₂.tables.entries w.walletId := by
  have hother : w ∈ walletsOf brokerId s₂.tables := same.wallets ▸ hw
  exact @same_of_restrict _ _ _ _ (fun d => balanceText d.entries w.walletId) same
    (balanceText_restrict hw) (balanceText_restrict hother)

theorem alike_addBalances (same : SameFor brokerId s₁ s₂) {ws : List Wallet}
    (hws : ∀ w ∈ ws, w ∈ walletsOf brokerId s₁.tables) (x : ℚ) :
    Alike s₁.tables s₂.tables (addBalances ws x) := by
  induction ws generalizing x with
  | nil => trivial
  | cons w ws ih =>
    have hw := hws w (List.mem_cons_self ..)
    rw [addBalances, getBalance, bind_eq]
    refine alike_query_bind (fun _ => same_balanceText same hw) fun _ => ?_
    exact ih (fun x hx => hws x (List.mem_cons_of_mem _ hx)) _

theorem alike_withBalance (same : SameFor brokerId s₁ s₂) {ws : List Wallet}
    (hws : ∀ w ∈ ws, w ∈ walletsOf brokerId s₁.tables) :
    Alike s₁.tables s₂.tables (withBalance ws) := by
  induction ws with
  | nil => trivial
  | cons w ws ih =>
    have hw := hws w (List.mem_cons_self ..)
    have hrest := ih fun x hx => hws x (List.mem_cons_of_mem _ hx)
    rw [withBalance, getBalance, bind_eq]
    refine alike_query_bind (fun _ => same_balanceText same hw) fun _ => ?_
    exact alike_bind hrest fun _ => trivial

theorem alike_brokerageTotal (same : SameFor brokerId s₁ s₂) :
    Alike s₁.tables s₂.tables (brokerageTotal brokerId) :=
  alike_query fun _ => @same_of_restrict _ _ _ _
    (fun d => sumText ((brokerageRows brokerId d).map (·.1.amount))) same
    (by rw [brokerageRows_restrict]) (by rw [brokerageRows_restrict])

theorem alike_cached (same : SameFor brokerId s₁ s₂) :
    Alike s₁ s₂ (cached ("positions:" ++ brokerId)) :=
  alike_tryCatch (alike_query fun _ => same.snapshot) fun _ => trivial

variable (same : SameFor brokerId s₁ s₂) (m₁ : Matched s₁.tables) (m₂ : Matched s₂.tables)
variable {user : CurrentUser} (hrole : user.role = .brokerUser) (hbroker : user.brokerId = some brokerId)
variable (K : PortalConfig) (query : Query)

include same hrole hbroker

include m₁ m₂ in
theorem alike_list : Alike s₁.tables s₂.tables (list K (some user) query) := by
  rw [list]
  split
  · trivial
  · rename_i q _
    rw [bind_eq]
    refine alike_ofExcept_bind fun b hb => ?_
    obtain rfl := scope_own hrole hbroker hb
    rw [bind_eq]
    refine alike_ofExcept_bind fun cursor _ => ?_
    rw [bind_eq]
    refine alike_query_bind (fun _ => ?_) fun _ => trivial
    let page : TradeListQuery := ⟨b, q.symbol, q.side, q.from_, q.to_, cursor, q.limit⟩
    exact @same_of_restrict _ _ _ _
      (fun d => (findByBroker page d).map fun t => (t.id, tradeListItem d t)) same
      (page_restrict m₁ page rfl) (page_restrict m₂ page rfl)

theorem alike_listDepositRequests :
    Alike s₁.tables s₂.tables (listDepositRequests (some user) query) := by
  rw [listDepositRequests, bind_eq]
  refine alike_ofExcept_bind fun b hb => ?_
  obtain rfl := scope_own hrole hbroker hb
  exact alike_query fun _ =>
    congrArg (fun rows => (newest (·.id) 100 rows).map mapDeposit) same.requests

theorem alike_withdrawable : Alike s₁.tables s₂.tables (withdrawable K (some user) query) := by
  rw [withdrawable, bind_eq]
  refine alike_ofExcept_bind fun b hb => ?_
  obtain rfl := scope_own hrole hbroker hb
  rw [bind_eq]
  refine alike_wallets_bind same fun ws hws => ?_
  exact alike_bind (alike_addBalances same hws 0) fun _ => trivial

include m₁ m₂ in
theorem alike_commissions : Alike s₁.tables s₂.tables (commissions (some user) query) := by
  rw [commissions, bind_eq]
  refine alike_ofExcept_bind fun b hb => ?_
  obtain rfl := scope_own hrole hbroker hb
  rw [bind_eq]
  refine alike_query_bind (fun _ => ?_) fun _ => ?_
  · exact @same_of_restrict _ _ _ _
      (fun d => (newest (·.1.id) 500 (brokerageRows b d)).map (commissionItem d)) same
      (commissions_restrict m₁) (commissions_restrict m₂)
  · exact alike_bind (alike_brokerageTotal same) fun _ => trivial

theorem alike_positions : Alike s₁ s₂ (positions K (some user) query) := by
  rw [positions, bind_eq]
  refine alike_ofExcept_bind fun b hb => ?_
  obtain rfl := scope_own hrole hbroker hb
  rw [bind_eq]
  refine alike_query_bind (fun _ => rfl) fun _ => ?_
  rw [bind_eq]
  refine alike_bind (alike_cached same) fun raw => ?_
  split <;> trivial

theorem alike_wallet : Alike s₁.tables s₂.tables (wallet (some user) query) := by
  rw [wallet, bind_eq]
  refine alike_ofExcept_bind fun b hb => ?_
  obtain rfl := scope_own hrole hbroker hb
  exact alike_wallets_bind same fun ws hws => alike_withBalance same hws

theorem alike_ledgerEntries : Alike s₁.tables s₂.tables (ledgerEntries (some user) query) := by
  rw [ledgerEntries, bind_eq]
  refine alike_ofExcept_bind fun b hb => ?_
  obtain rfl := scope_own hrole hbroker hb
  rw [bind_eq]
  refine alike_ofExcept_bind fun limit _ => ?_
  exact alike_query fun _ => @same_of_restrict _ _ _ _
    (fun d => newest (·.id) limit (d.entries.flatMap fun e =>
      (d.wallets.filter fun w => w.walletId = e.walletId ∧ w.brokerId = b).map fun _ => e)) same
    (congrArg (newest (·.id) limit) entries_restrict) (congrArg (newest (·.id) limit) entries_restrict)

theorem alike_ordersList : Alike s₁.tables s₂.tables (ordersList (some user) query) := by
  rw [ordersList, bind_eq]
  refine alike_ofExcept_bind fun b hb => ?_
  obtain rfl := scope_own hrole hbroker hb
  rw [bind_eq]
  refine alike_ofExcept_bind fun limit _ => ?_
  rw [bind_eq]
  refine alike_ofExcept_bind fun status _ => ?_
  have hkept : ∀ d, ((restrict b d).orders.filter fun o => o.brokerId = b ∧ status.all (· = o.status)) =
      d.orders.filter fun o => o.brokerId = b ∧ status.all (· = o.status) :=
    fun d => filter_implied fun o _ h => decide_eq_true (of_decide_eq_true h).1
  exact alike_query fun _ => @same_of_restrict _ _ _ _ (fun d => newest (·.id) limit
    (d.orders.filter fun o => o.brokerId = b ∧ status.all (· = o.status))) same
    (congrArg (newest (·.id) limit) (hkept _)) (congrArg (newest (·.id) limit) (hkept _))

include m₁ m₂ in
theorem alike_dashboard : Alike s₁ s₂ (dashboard K (some user) query) := by
  rw [dashboard, bind_eq]
  refine alike_ofExcept_bind fun b hb => ?_
  obtain rfl := scope_own hrole hbroker hb
  have hwallets : onTables (findWalletsByBroker b) =
      StatementProgram.query fun v i => anyOrder (walletsOf b v.own.tables) i.pick := rfl
  have hlegs : (onTables (StatementProgram.query fun v i => anyOrder (legsOf b v.own) i.pick) :
      PortalProgram (List Leg)) =
      StatementProgram.query fun v i => anyOrder (legsOf b v.own.tables) i.pick := rfl
  have hsame : legsOf b s₁.tables = legsOf b s₂.tables :=
    same_of_restrict same (legsOf_restrict m₁) (legsOf_restrict m₂)
  rw [bind_eq, hwallets]
  refine alike_query_bind (fun i => congrArg (anyOrder · i.pick) same.wallets) fun i => ?_
  have hws : ∀ w ∈ anyOrder (walletsOf b s₁.tables) i.pick, w ∈ walletsOf b s₁.tables :=
    fun w hw => (anyOrder_perm _ _).mem_iff.mp hw
  rw [bind_eq]
  refine alike_bind (alike_onPart (alike_addBalances same hws 0)) fun balance => ?_
  rw [bind_eq]
  refine alike_bind (alike_onPart (alike_brokerageTotal same)) fun charges => ?_
  rw [bind_eq, hlegs]
  refine alike_bind (alike_query fun i => congrArg (anyOrder · i.pick) hsame) fun legs => ?_
  rw [bind_eq]
  exact alike_bind (alike_cached same) fun snap => trivial

include m₁ m₂ in
/-- Every list and every page reads both states alike. -/
theorem alike_portalReads (call : PortalCall) : Alike s₁ s₂ (portalReads K (some user) call) := by
  cases call with
  | list query =>
    exact alike_onPart (alike_bind (alike_list same m₁ m₂ hrole hbroker K query) fun _ => trivial)
  | listDepositRequests query =>
    exact alike_onPart (alike_bind (alike_listDepositRequests same hrole hbroker query)
      fun _ => trivial)
  | withdrawable query =>
    exact alike_onPart (alike_bind (alike_withdrawable same hrole hbroker K query) fun _ => trivial)
  | commissions query =>
    exact alike_onPart (alike_bind (alike_commissions same m₁ m₂ hrole hbroker query)
      fun _ => trivial)
  | positions query => exact alike_bind (alike_positions same hrole hbroker K query) fun _ => trivial
  | wallet query =>
    exact alike_onPart (alike_bind (alike_wallet same hrole hbroker query) fun _ => trivial)
  | ledgerEntries query =>
    exact alike_onPart (alike_bind (alike_ledgerEntries same hrole hbroker query) fun _ => trivial)
  | ordersList query =>
    exact alike_onPart (alike_bind (alike_ordersList same hrole hbroker query) fun _ => trivial)
  | dashboard query =>
    exact alike_bind (alike_dashboard same m₁ m₂ hrole hbroker K query) fun _ => trivial

end Alike

/-- Whatever a user of a broker is shown of a trade, while others change the
tables, is of that broker. -/
theorem detail_own {user : CurrentUser} {brokerId : String} (hrole : user.role = .brokerUser)
    (hbroker : user.brokerId = some brokerId) {tradeId : String} {os : List (Seen Store Input Failure)}
    {r : TradeWithCharges} (h : replay (detail (some user) tradeId) os = some (.done r)) :
    r.trade.brokerId = brokerId ∧ r.trade.tradeId = tradeId ∧ ∀ c ∈ r.charges, c.tradeId = tradeId := by
  rw [detail, bind_eq] at h
  obtain ⟨v, i, rest, h⟩ := replay_query_bind h
  split at h
  · exact absurd (replay_throw h).2 (by simp)
  · rename_i trade hfound
    have hmem := List.mem_filter.mp (List.mem_of_getElem? hfound)
    have hid : trade.tradeId = tradeId := of_decide_eq_true hmem.2
    split at h
    · exact absurd (replay_throw h).2 (by simp)
    · rename_i hown
      have hbrokerOwn : trade.brokerId = brokerId := by
        by_contra hne
        exact hown ⟨hrole, by rw [hbroker]; simpa using hne⟩
      rw [bind_eq] at h
      obtain ⟨v', i', rest', h⟩ := replay_query_bind h
      cases (replay_done h).2
      refine ⟨hbrokerOwn, hid, fun c hc => ?_⟩
      have hcharge := (anyOrder_perm _ _).mem_iff.mp hc
      exact of_decide_eq_true (List.mem_filter.mp hcharge).2

/-- A user of a broker is shown the same by two states that agree on the rows
of that broker and on its snapshot, whatever the query names; a trade that is
shown in detail is one of the broker, and so are its charges. -/
theorem reads_isolated (K : PortalConfig) (user : CurrentUser) (brokerId : String)
    (hrole : user.role = .brokerUser) (hbroker : user.brokerId = some brokerId) :
    (∀ (call : PortalCall) (is : List (Except Failure Input)) (s₁ s₂ : Portal),
      Matched s₁.tables → Matched s₂.tables → SameFor brokerId s₁ s₂ →
      answer (portalReads K (some user) call) s₁ is = answer (portalReads K (some user) call) s₂ is) ∧
    ∀ (tradeId : String) (os : List (Seen Store Input Failure)) (r : TradeWithCharges),
      replay (detail (some user) tradeId) os = some (.done r) →
      r.trade.brokerId = brokerId ∧ r.trade.tradeId = tradeId ∧
        (∀ c ∈ r.charges, c.tradeId = tradeId) ∧
        ∀ d : Store, (d.trades.map (·.tradeId)).Nodup → r.trade ∈ d.trades →
          ∀ t ∈ d.trades, ∀ c ∈ r.charges, c.tradeId = t.tradeId → t.brokerId = brokerId := by
  refine ⟨fun call is s₁ s₂ m₁ m₂ same =>
    answer_alike (alike_portalReads same m₁ m₂ hrole hbroker K call) is, ?_⟩
  intro tradeId os r h
  obtain ⟨hown, hid, hcharges⟩ := detail_own hrole hbroker h
  refine ⟨hown, hid, hcharges, ?_⟩
  intro d hunique htrade t ht c hc hof
  have hsame : t.tradeId = r.trade.tradeId := by rw [← hof, hcharges c hc, hid]
  have heq : t = r.trade := List.inj_on_of_nodup_map hunique ht htrade hsame
  rw [heq, hown]

/-- The pages without a floor and without a cache that can be read. -/
def plainPortal : PortalConfig := ⟨.epoch, fun _ => none, ⟨0, "0"⟩⟩

/-- A user of broker B1. -/
def portalUser : CurrentUser := ⟨"U1", "u1@b1.test", .brokerUser, some "B1"⟩

/-- A wallet of a broker with a deposit of one dollar. -/
def funded (n : ℕ) (brokerId : String) : Wallet × LedgerEntry :=
  (⟨n, "W" ++ toString n, brokerId, "USD"⟩, ⟨n, "E" ++ toString n, "W" ++ toString n, .credit,
    .one, "USD", .deposit, "D" ++ toString n, "deposit"⟩)

/-- Some funded wallets. -/
def fundedPortal (funds : List (Wallet × LedgerEntry)) : Portal :=
  ⟨{ Store.empty with wallets := funds.map Prod.fst, entries := funds.map Prod.snd }, fun _ => none⟩

/-- Broker B1 alone. -/
def oneBroker : Portal := fundedPortal [funded 1 "B1"]

/-- Broker B1 beside a broker B2. -/
def twoBrokers : Portal := fundedPortal [funded 1 "B1", funded 2 "B2"]

/-- A query that names broker B2. -/
def ofOther : Query := fun key => if key = "brokerId" then some (.one "B2") else none

/-- How many entries a ledger page shows. -/
def entriesShown : Option (Except Failure PortalReply) → Option ℕ
  | some (.ok (.ledgerEntries items)) => some items.length
  | _ => none

theorem sameFor_oneBroker : SameFor "B1" oneBroker twoBrokers where
  orders := rfl
  trades := rfl
  charges := rfl
  wallets := by decide +kernel
  entries := by decide +kernel
  requests := rfl
  snapshot := rfl

/-- The user of broker B1 sees one entry, with broker B2 there or not. -/
theorem reads_isolated_ledger :
    answer (portalReads plainPortal (some portalUser) (.ledgerEntries ofOther)) oneBroker [.ok quiet] =
      answer (portalReads plainPortal (some portalUser) (.ledgerEntries ofOther)) twoBrokers [.ok quiet] ∧
    entriesShown (answer (portalReads plainPortal (some portalUser) (.ledgerEntries ofOther)) oneBroker
      [.ok quiet]) = some 1 ∧
    ∀ (tradeId : String) (os : List (Seen Store Input Failure)) (r : TradeWithCharges),
      replay (detail (some portalUser) tradeId) os = some (.done r) → r.trade.brokerId = "B1" := by
  have hisolated := reads_isolated plainPortal portalUser "B1" rfl rfl
  refine ⟨?_, ?_, fun tradeId os r h => (hisolated.2 tradeId os r h).1⟩
  · exact hisolated.1 (.ledgerEntries ofOther) [.ok quiet] oneBroker twoBrokers
      (fun t ht => absurd ht (by simp [oneBroker, fundedPortal, Store.empty]))
      (fun t ht => absurd ht (by simp [twoBrokers, fundedPortal, Store.empty])) sameFor_oneBroker
  · decide +kernel

end LpPlatform.ReadIsolation
