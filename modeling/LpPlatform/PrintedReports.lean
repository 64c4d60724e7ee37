import LpPlatform.MarkupTexts
import LpPlatform.PageProfit

/-!
# Printed reports

The pages of the broker print what they show: a document is written into a new
window, with the texts of the rows in a table. Whatever the texts hold, a
browser reads a table with a row for each entry that the page shows, in their
order, whose cells are the texts, and no tag that is not of the template.
-/

namespace LpPlatform.PrintedReports

open DecimalText JsValues MarkupTexts PageProfit PortalReads

/-- The named references of a browser, with the three that are written. -/
structure References where
  named : List Char → Bool → List Char
  amp : named ['a', 'm', 'p'] true = ['&']
  lt : named ['l', 't'] true = ['<']
  gt : named ['g', 't'] true = ['>']

/-- The names of the marks that a text may not hold. -/
def nameOf (c : Char) : Option (List Char) :=
  if c = '&' then some ['a', 'm', 'p']
  else if c = '<' then some ['l', 't']
  else if c = '>' then some ['g', 't']
  else none

/-- A name is one of three. -/
theorem nameOf_cases {c : Char} {name : List Char} (h : nameOf c = some name) :
    (c = '&' ∧ name = ['a', 'm', 'p']) ∨ (c = '<' ∧ name = ['l', 't']) ∨ (c = '>' ∧ name = ['g', 't']) := by
  unfold nameOf at h
  split_ifs at h with hamp hlt hgt
  · exact .inl ⟨hamp, (Option.some.inj h).symm⟩
  · exact .inr (.inl ⟨hlt, (Option.some.inj h).symm⟩)
  · exact .inr (.inr ⟨hgt, (Option.some.inj h).symm⟩)

theorem nameOf_letters {c : Char} {name : List Char} (h : nameOf c = some name) :
    name.all Char.isAlphanum = true := by
  obtain ⟨-, rfl⟩ | ⟨-, rfl⟩ | ⟨-, rfl⟩ := nameOf_cases h
  · rfl
  · rfl
  · rfl

/-- The markup of a browser, outside of comments. A title, a style and a script
have rules of their own, which agree where no bracket and no ampersand
stands. -/
def html (T : References) : Escapes Char where
  opening := '<'
  closing := '>'
  quote := '"'
  ampersand := '&'
  semicolon := ';'
  starts := fun c => c.isAlpha || c = '/' || c = '!' || c = '?'
  inName := Char.isAlphanum
  named := T.named
  nameOf := nameOf
  opening_named := by decide
  ampersand_named := by decide
  opening_ne := by decide
  semicolon_ends := by decide
  letters := by
    intro c name h b hb
    exact List.all_eq_true.mp (nameOf_letters h) b hb
  stands := by
    intro c name h
    obtain ⟨rfl, rfl⟩ | ⟨rfl, rfl⟩ | ⟨rfl, rfl⟩ := nameOf_cases h
    · exact T.amp
    · exact T.lt
    · exact T.gt

/-- `esc` of a text. -/
def esc (v : List Char) : List Char := v.flatMap fun c =>
  if c = '&' then "&amp;".toList else if c = '<' then "&lt;".toList else if c = '>' then "&gt;".toList else [c]

/-- What a browser does to dates and numbers. -/
structure Locale where
  parser : DateParser
  /-- `Intl.DateTimeFormat`. -/
  format : Instant → String
  /-- `toLocaleString` of a date. -/
  dateText : Instant → String
  /-- `toLocaleString` of a number with two decimals. -/
  amountText : ℚ → String
  toLowerCase : String → String
  /-- The text of the time of the print. -/
  generated : String

variable (L : Locale)

/-- `formatDateTime`. -/
def formatDateTime (iso : String) : String :=
  match L.parser.parse iso with
  | some t => L.format t
  | none => iso

/-- `new Date(iso).toLocaleString()`. -/
def dateLocaleString (iso : String) : String :=
  match L.parser.parse iso with
  | some t => L.dateText t
  | none => "Invalid Date"

/-- A part of a template, or a value that is put in as it is. -/
def literal (s : String) : Piece Char := .fixed s.toList

/-- A value that goes through `esc`. -/
def escaped (s : String) : Piece Char := .shown s.toList

/-- The text of a template. -/
def document (parts : List (Piece Char)) : List Char := parts.flatMap fun part =>
  match part with
  | .fixed text => text
  | .shown text => esc text

/-- The rules that all reports have. -/
def css : List (Piece Char) :=
  [literal "\n        *\x7bfont-family:Arial,Helvetica,sans-serif\x7d",
    literal "\n        body\x7bmargin:24px;color:#111\x7d",
    literal "\n        h1\x7bfont-size:18px;margin:0 0 4px\x7d",
    literal "\n        .meta\x7bfont-size:12px;color:#555;margin-bottom:16px\x7d",
    literal "\n        table\x7bwidth:100%;border-collapse:collapse;font-size:11px\x7d",
    literal "\n        th,td\x7bborder:1px solid #ddd;padding:5px 7px;text-align:left\x7d",
    literal "\n        th\x7bbackground:#f3f3f3\x7d"]

/-- The document that all reports make, of their own parts. -/
def report (title heading : List (Piece Char)) (style : String) (caption head body : List (Piece Char)) :
    List (Piece Char) :=
  [literal "<!doctype html><html><head><meta charset=\"utf-8\"/>\n      <title>"] ++ title ++
    [literal "</title>\n      <style>"] ++ css ++
    [literal style, literal "\n      </style></head><body>\n      <h1>"] ++ heading ++
    [literal "</h1>\n      <div class=\"meta\">Date range: "] ++ caption ++
    [literal "</div>\n      <table>\n        <thead><tr>"] ++ head ++
    [literal "</tr></thead>\n        <tbody>"] ++ body ++
    [literal "</tbody>\n      </table>\n      <script>",
      literal "window.onload=function()\x7bwindow.print();\x7d", literal "</script>\n    </body></html>"]

/-- The dates that a page is filtered by, empty if there is none. -/
structure Dates where
  dateFrom : String
  dateTo : String

/-- `range`, with the arrow of the report. -/
def range (arrow : String) (d : Dates) : String :=
  if d.dateFrom ≠ "" ∨ d.dateTo ≠ "" then
    (if d.dateFrom ≠ "" then d.dateFrom else "…") ++ arrow ++ (if d.dateTo ≠ "" then d.dateTo else "…")
  else "All dates"

/-- A number before another. Nothing is before or after `NaN` or null. -/
def less (x y : Option Instant) : Bool :=
  match x, y with
  | some x, some y => x < y
  | _, _ => false

/-- `inRange`. -/
def inRange (d : Dates) (iso : String) : Bool :=
  let fromTs := if d.dateFrom = "" then none else L.parser.parse (d.dateFrom ++ "T00:00:00")
  let toTs := if d.dateTo = "" then none else L.parser.parse (d.dateTo ++ "T23:59:59.999")
  let ts := L.parser.parse iso
  !less ts fromTs && !less toTs ts

/-- An entry of the ledger. -/
structure LedgerEntryDto where
  direction : String
  amount : String
  currency : String
  referenceType : String
  description : String
  createdAt : String

/-- A commission. -/
structure CommissionDto where
  amount : String
  createdAt : String
  tradeId : String
  symbol : String
  side : String
  quantity : String
  user : Option String
  userId : Option String

/-- A request for a deposit or a withdrawal. -/
structure DepositRequestDto where
  kind : Option String
  amount : String
  currency : String
  method : String
  note : Option String
  status : String
  createdAt : String

/-- A trade of the list. -/
structure TradeListItem extends TradeItem where
  executedAt : String
  symbol : String
  clientUserLabel : Option String
  clientUserId : Option String

/-- `METHOD_LABEL[r.method] ?? r.method`. -/
def methodLabel (method : String) : String :=
  if method = "card" then "Credit / Debit Card"
  else if method = "bank" then "Bank Transfer"
  else if method = "upi" then "UPI"
  else if method = "crypto" then "Crypto"
  else if method = "manual" then "Manual / Other"
  else method

/-- The status of a trade. -/
def tStatus (t : TradeItem) : String := if t.clientOrderId.any isCloseId then "CLOSE" else "OPEN"

/-- `fmtPnl`. -/
def fmtPnl (n : ℚ) : String := (if 0 ≤ n then "+" else "-") ++ "$" ++ L.amountText |n|

/-- `includes`. -/
def includes (needle : List Char) : List Char → Bool
  | [] => needle.isEmpty
  | c :: cs => needle.isPrefixOf (c :: cs) || includes needle cs

/-- `Number(text).toFixed(2)`. -/
def fixed2 (text : String) : String := (toNumber text).toFixed 2

section Tables

/-- A name in the head of a table. -/
def th (name : String) : List (Piece Char) := [literal "<th>", literal name, literal "</th>"]

/-- The name of a column that is aligned to the right. -/
def thRight (name : String) : List (Piece Char) := [literal "<th class=\"r\">", literal name, literal "</th>"]

/-- The table of the wallet page, in which all cells are alike. -/
def walletRow (row : List String) : List (Piece Char) :=
  [literal "<tr>"] ++ (row.flatMap fun cell => [literal "<td>", escaped cell, literal "</td>"]) ++ [literal "</tr>"]

/-- The head of that table. -/
def walletHead (head : List String) : List (Piece Char) :=
  head.flatMap fun h => [literal "<th>", escaped h, literal "</th>"]

/-- `PdfBtn` of the wallet page. -/
def pdfBtn (label : String) (head : List String) (rows : List (List String)) (d : Dates) : List (Piece Char) :=
  report [escaped label, literal " report"] [escaped label] ""
    [escaped (range " -> " d), literal " · ", literal (toString rows.length), literal " entries",
      literal " · Generated ", escaped L.generated]
    (walletHead head) (rows.flatMap walletRow)

/-- A row of the transactions page. -/
def transactionRow (e : LedgerEntryDto) : List (Piece Char) :=
  [literal "<tr>\n          <td>", escaped e.direction,
    literal "</td>\n          <td class=\"r\">", literal (if e.direction = "CREDIT" then "+" else "-"),
    escaped e.amount, literal " ", escaped e.currency,
    literal "</td>\n          <td>", escaped e.referenceType,
    literal "</td>\n          <td>", escaped e.description,
    literal "</td>\n          <td>", escaped (formatDateTime L e.createdAt), literal "</td>\n        </tr>"]

/-- `PdfButton` of the transactions page. -/
def transactionsPdf (entries : List LedgerEntryDto) (d : Dates) : List (Piece Char) :=
  report [literal "Transactions report"] [literal "Transactions report"] "\n        .r\x7btext-align:right\x7d"
    [escaped (range " -> " d), literal " · ", literal (toString entries.length), literal " entries",
      literal " · Generated ", escaped L.generated]
    ([literal "\n          "] ++ th "Type" ++ thRight "Amount" ++ th "Reference" ++ th "Description" ++ th "Date" ++
      [literal "\n        "])
    (entries.flatMap (transactionRow L))

/-- A row of the charges page. -/
def commissionRow (c : CommissionDto) : List (Piece Char) :=
  [literal "<tr>\n          <td>", escaped (dateLocaleString L c.createdAt),
    literal "</td>\n          <td class=\"mono\">", escaped c.tradeId,
    literal "</td>\n          <td>", escaped (c.user.getD "—"),
    literal "</td>\n          <td class=\"mono\">", escaped (c.userId.getD "—"),
    literal "</td>\n          <td>", escaped c.symbol,
    literal "</td>\n          <td>", escaped c.side,
    literal "</td>\n          <td class=\"r\">", escaped (fixed2 c.quantity),
    literal "</td>\n          <td class=\"r\">", literal "-", escaped (fixed2 c.amount),
    literal "</td>\n        </tr>"]

/-- `PdfButton` of the charges page. -/
def commissionsPdf (commissions : List CommissionDto) (d : Dates) (total : ℚ) : List (Piece Char) :=
  report [literal "Commissions report"] [literal "Commissions report"]
    "\n        .r\x7btext-align:right\x7d.mono\x7bfont-family:Consolas,monospace\x7d"
    [escaped (range " -> " d), literal " · ", literal (toString commissions.length), literal " entries · Total $",
      literal (toFixed total 2), literal " · Generated ", escaped L.generated]
    ([literal "\n          "] ++ th "Date" ++ th "Trade ID" ++ th "User" ++ th "User ID" ++ th "Symbol" ++
      [literal "\n          "] ++ th "Side" ++ thRight "Lots" ++ thRight "Commission" ++ [literal "\n        "])
    (commissions.flatMap (commissionRow L))

/-- A row of the trades page. -/
def tradeRow (pnlByTrade : List (String × Option ℚ)) (t : TradeListItem) : List (Piece Char) :=
  let pnlText := ((mapGet pnlByTrade t.tradeId).join.map (fmtPnl L)).getD "—"
  [literal "<tr>\n          <td>", escaped (formatDateTime L t.executedAt),
    literal "</td>\n          <td class=\"mono\">", escaped t.tradeId,
    literal "</td>\n          <td>", escaped (t.clientUserLabel.getD "—"),
    literal "</td>\n          <td class=\"mono\">", escaped (t.clientUserId.getD "—"),
    literal "</td>\n          <td>", escaped t.symbol,
    literal "</td>\n          <td>", escaped t.side,
    literal "</td>\n          <td>", escaped (tStatus t.toTradeItem),
    literal "</td>\n          <td class=\"r\">", escaped (fixed2 t.quantity),
    literal "</td>\n          <td class=\"r\">", escaped t.price,
    literal "</td>\n          <td class=\"r\">", escaped (t.chargesTotal.getD "0"),
    literal "</td>\n          <td class=\"r\">", escaped pnlText,
    literal "</td>\n        </tr>"]

/-- `PdfButton` of the trades page. -/
def tradesPdf (trades : List TradeListItem) (pnlByTrade : List (String × Option ℚ)) (d : Dates) : List (Piece Char) :=
  report [literal "Trades report"] [literal "Trades report"]
    "\n        .r\x7btext-align:right\x7d.mono\x7bfont-family:Consolas,monospace\x7d"
    [escaped (range " → " d), literal " · ", literal (toString trades.length), literal " trades",
      literal " · Generated ", escaped L.generated]
    ([literal "\n          "] ++ th "Time" ++ th "Trade ID" ++ th "User" ++ th "User ID" ++ th "Symbol" ++
      [literal "\n          "] ++ th "Side" ++ th "Status" ++ thRight "Qty" ++ thRight "Price" ++
      -- The template has the reference for the ampersand itself here.
      [literal "\n          "] ++ thRight "Charges" ++
      [literal "<th class=\"r\">", literal "P", escaped "&", literal "L", literal "</th>", literal "\n        "])
    (trades.flatMap (tradeRow L pnlByTrade))

end Tables

section Pages

/-- What the transactions page is filtered by. -/
inductive Filter where
  | all
  | credit
  | debit
  deriving DecidableEq

/-- `filtered` of the transactions page. -/
def transactionsShown (filter : Filter) (d : Dates) (all : List LedgerEntryDto) : List LedgerEntryDto :=
  all.filter fun e => !(filter = .credit && e.direction ≠ "CREDIT") && !(filter = .debit && e.direction ≠ "DEBIT") &&
    inRange L d e.createdAt

/-- `filtered` of the charges page. -/
def commissionsShown (d : Dates) (items : List CommissionDto) : List CommissionDto :=
  items.filter fun c => inRange L d c.createdAt

/-- `total` of the charges page. -/
def total (filtered : List CommissionDto) : ℚ :=
  filtered.foldl (fun s c => toDouble (s + CurrencyCaps.numberWith toDouble c.amount)) 0

/-- What the trades page is filtered by besides the dates. -/
structure Search where
  q : String
  /-- A side, unless all are shown. -/
  side : Option String
  status : Option String

/-- A text holds the needle when case does not count. -/
def found (needle : List Char) (text : String) : Bool := includes needle (L.toLowerCase text).toList

/-- `filtered` of the trades page. -/
def tradesShown (search : Search) (d : Dates) (all : List TradeListItem) : List TradeListItem :=
  let needle := (L.toLowerCase (String.ofList (trim search.q.toList))).toList
  all.filter fun t => !(search.side.any fun side => t.side ≠ side) &&
    !(search.status.any fun status => tStatus t.toTradeItem ≠ status) && inRange L d t.executedAt &&
    !(needle ≠ [] && !(found L needle t.symbol || found L needle t.tradeId ||
      found L needle (t.clientUserId.getD "") || found L needle (t.clientUserLabel.getD "")))

/-- What a page prints. -/
inductive Printout where
  | requests (all : List DepositRequestDto)
  | history (all : List LedgerEntryDto)
  | transactions (filter : Filter) (all : List LedgerEntryDto)
  | commissions (items : List CommissionDto)
  | trades (search : Search) (all : List TradeListItem)

/-- The cells of a request in the wallet page. -/
def requestCells (r : DepositRequestDto) : List String :=
  [dateLocaleString L r.createdAt, if r.kind = some "withdrawal" then "Withdrawal" else "Deposit",
    methodLabel r.method, fixed2 r.amount ++ " " ++ r.currency, r.note.getD "—", r.status]

/-- The cells of an entry in the wallet page. -/
def historyCells (e : LedgerEntryDto) : List String :=
  [e.direction, (if e.direction = "CREDIT" then "+" else "-") ++ e.amount ++ " " ++ e.currency, e.referenceType,
    e.description, dateLocaleString L e.createdAt]

/-- What the button of a page writes. -/
def Printout.parts (d : Dates) : Printout → List (Piece Char)
  | requests all => pdfBtn L "Deposit & withdrawal requests" ["Date", "Type", "Method", "Amount", "Note", "Status"]
      ((all.filter fun r => inRange L d r.createdAt).map (requestCells L)) d
  | history all => pdfBtn L "Transaction history" ["Type", "Amount", "Reference", "Description", "Date"]
      ((all.filter fun e => inRange L d e.createdAt).map (historyCells L)) d
  | transactions filter all => transactionsPdf L (transactionsShown L filter d all) d
  | commissions items => commissionsPdf L (commissionsShown L d items) d (total (commissionsShown L d items))
  | trades search all =>
      tradesPdf L (tradesShown L search d all) (buildPnlMap toDouble (all.map (·.toTradeItem))) d

end Pages

/-- What a report shows. -/
structure Page where
  title : List Char
  heading : List Char
  caption : List Char
  head : List (List Char)
  rows : List (List (List Char))

/-- One who looks at a report, with the row and the text that are not yet
complete. -/
structure Viewer where
  page : Page
  row : List (List Char)
  text : List Char

/-- A tag ends the text before it. The rows of the head are none of the
table's. -/
def Viewer.tagged (v : Viewer) (body : List Char) : Viewer :=
  if body = ['/', 't', 'd'] then ⟨v.page, v.row ++ [v.text], []⟩
  else if body = ['/', 't', 'r'] then ⟨{ v.page with rows := v.page.rows ++ [v.row] }, [], []⟩
  else if body = ['t', 'b', 'o', 'd', 'y'] then ⟨{ v.page with rows := [] }, [], []⟩
  else if body = ['/', 't', 'h'] then ⟨{ v.page with head := v.page.head ++ [v.text] }, v.row, []⟩
  else if body = ['/', 't', 'i', 't', 'l', 'e'] then ⟨{ v.page with title := v.text }, v.row, []⟩
  else if body = ['/', 'h', '1'] then ⟨{ v.page with heading := v.text }, v.row, []⟩
  else if body = ['/', 'd', 'i', 'v'] then ⟨{ v.page with caption := v.text }, v.row, []⟩
  else ⟨v.page, v.row, []⟩

def Viewer.see (v : Viewer) : Item Char → Viewer
  | .char c => ⟨v.page, v.row, v.text ++ [c]⟩
  | .tag body => v.tagged body

/-- What is shown of what a browser has read. -/
def view (items : List (Item Char)) : Page := (items.foldl Viewer.see ⟨⟨[], [], [], [], []⟩, [], []⟩).page

section Viewing

variable {T : References} {v v' v'' : Viewer} {parts rest : List (Piece Char)}

/-- Parts that take a viewer from one state to another. -/
structure Shows (T : References) (v : Viewer) (parts : List (Piece Char)) (v' : Viewer) : Prop where
  settled : ∀ part ∈ parts, (html T).Settled part
  seen : (parts.flatMap (html T).items).foldl Viewer.see v = v'

theorem Shows.append (h : Shows T v parts v') (hrest : Shows T v' rest v'') : Shows T v (parts ++ rest) v'' := by
  refine ⟨fun part hpart => (List.mem_append.mp hpart).elim (h.settled part) (hrest.settled part), ?_⟩
  rw [List.flatMap_append, List.foldl_append, h.seen, hrest.seen]

theorem Shows.cons {part : Piece Char} (h : Shows T v [part] v') (hrest : Shows T v' rest v'') :
    Shows T v (part :: rest) v'' := Shows.append h hrest

theorem shows_nil (v : Viewer) : Shows T v [] v := ⟨fun _ h => absurd h List.not_mem_nil, rfl⟩

theorem see_chars (text : List Char) (v : Viewer) :
    (text.map Item.char).foldl Viewer.see v = ⟨v.page, v.row, v.text ++ text⟩ := by
  induction text generalizing v with
  | nil => simp
  | cons c text ih =>
    rw [List.map_cons, List.foldl_cons, ih, Viewer.see, List.append_assoc]
    rfl

/-- A fixed part, as a reader goes through it. -/
theorem shows_literal (text : List Char) (hsettled : ((html T).run .text text).2 = .text)
    (hseen : ((html T).run .text text).1.foldl Viewer.see v = v') : Shows T v [literal (String.ofList text)] v' := by
  refine ⟨fun part hpart => ?_, ?_⟩
  · obtain rfl := List.mem_singleton.mp hpart
    rw [literal, String.toList_ofList]
    exact hsettled
  · rw [List.flatMap_singleton, literal, String.toList_ofList]
    exact hseen

/-- Parts that only add to the text. -/
def Says (T : References) (parts : List (Piece Char)) (text : List Char) : Prop :=
  ∀ v : Viewer, Shows T v parts ⟨v.page, v.row, v.text ++ text⟩

theorem Says.append {text more : List Char} (h : Says T parts text) (hrest : Says T rest more) :
    Says T (parts ++ rest) (text ++ more) := by
  intro v
  have happend := (h v).append (hrest _)
  rwa [List.append_assoc] at happend

theorem Says.cons {part : Piece Char} {text more : List Char} (h : Says T [part] text) (hrest : Says T rest more) :
    Says T (part :: rest) (text ++ more) := Says.append h hrest

theorem says_escaped (s : String) : Says T [escaped s] s.toList := by
  intro v
  refine ⟨fun part hpart => ?_, ?_⟩
  · obtain rfl := List.mem_singleton.mp hpart
    trivial
  · rw [List.flatMap_singleton]
    exact see_chars s.toList v

/-- A text has neither a bracket nor an ampersand in it. -/
def Plain (text : List Char) : Prop := ∀ c ∈ text, c ≠ '<' ∧ c ≠ '&'

theorem says_literal {s : String} (h : Plain s.toList) : Says T [literal s] s.toList := by
  obtain ⟨hsettled, hitems⟩ := (html T).settled_plain h
  intro v
  refine ⟨fun part hpart => ?_, ?_⟩
  · obtain rfl := List.mem_singleton.mp hpart
    exact hsettled
  · rw [List.flatMap_singleton]
    exact hitems ▸ see_chars s.toList v

/-- A text of the template without marks. -/
theorem plain_ofList (text : List Char) (h : text.all (fun c => c ≠ '<' && c ≠ '&') = true) :
    Plain (String.ofList text).toList := by
  intro c hc
  rw [String.toList_ofList] at hc
  simpa using List.all_eq_true.mp h c hc

/-- Such a text of the template only adds to the text. -/
theorem says_plain (text : List Char) (h : text.all (fun c => c ≠ '<' && c ≠ '&') = true) :
    Says T [literal (String.ofList text)] (String.ofList text).toList := says_literal (plain_ofList text h)

theorem plain_of_isDigit {text : List Char} (h : text.all Char.isDigit = true) : Plain text := by
  intro c hc
  have hdigit := List.all_eq_true.mp h c hc
  constructor
  · rintro rfl
    exact absurd hdigit (by decide)
  · rintro rfl
    exact absurd hdigit (by decide)

theorem Plain.append {text more : List Char} (h : Plain text) (hmore : Plain more) : Plain (text ++ more) :=
  fun c hc => (List.mem_append.mp hc).elim (h c) (hmore c)

theorem plain_toDigits (n : ℕ) : Plain (Nat.toDigits 10 n) :=
  plain_of_isDigit (List.all_eq_true.mpr fun _ hc => Nat.isDigit_of_mem_toDigits (by decide) (by decide) hc)

theorem plain_toString (n : ℕ) : Plain (toString n).toList := by
  have h : (toString n).toList = Nat.toDigits 10 n := String.toList_ofList
  exact h ▸ plain_toDigits n

theorem plain_toFixed (x : ℚ) (digits : ℕ) : Plain (toFixed x digits).toList := by
  have hsign : Plain (if decide (x < 0) = true then ['-'] else []) := by
    intro c hc
    split_ifs at hc with hneg
    · obtain rfl := List.mem_singleton.mp hc
      exact ⟨by decide, by decide⟩
    · exact absurd hc List.not_mem_nil
  have hfraction : ∀ n, Plain (if digits = 0 then [] else '.' :: padded digits n) := by
    intro n
    split_ifs
    · exact fun c hc => absurd hc List.not_mem_nil
    · have hpoint : Plain ['.'] := plain_ofList ['.'] rfl
      exact hpoint.append (plain_of_isDigit (isDigit_padded digits n))
  rw [toFixed, String.toList_ofList]
  exact hsign.append ((plain_toDigits _).append (hfraction _))

end Viewing

section Rows

variable {T : References} {page : Page} {row : List (List Char)} {text : List Char} {rest : List (Piece Char)}
  {v' : Viewer}

/-- A part that ends a cell and begins the next. -/
def Next (T : References) (s : String) : Prop :=
  ∀ (page : Page) (row : List (List Char)) (text : List Char),
    Shows T ⟨page, row, text⟩ [literal s] ⟨page, row ++ [text], []⟩

theorem next_td : Next T "</td>\n          <td>" := fun _ _ _ => shows_literal _ rfl rfl

theorem next_mono : Next T "</td>\n          <td class=\"mono\">" := fun _ _ _ => shows_literal _ rfl rfl

theorem next_r : Next T "</td>\n          <td class=\"r\">" := fun _ _ _ => shows_literal _ rfl rfl

theorem shows_open : Shows T ⟨page, row, text⟩ [literal "<tr>\n          <td>"] ⟨page, row, []⟩ :=
  shows_literal _ rfl rfl

theorem shows_close : Shows T ⟨page, row, text⟩ [literal "</td>\n        </tr>"]
    ⟨{ page with rows := page.rows ++ [row ++ [text]] }, [], []⟩ := shows_literal _ rfl rfl

/-- A cell and what comes after it. -/
theorem Next.cell {s value : String} (hnext : Next T s) (h : Shows T ⟨page, row ++ [value.toList], []⟩ rest v') :
    Shows T ⟨page, row, []⟩ (escaped value :: literal s :: rest) v' :=
  (says_escaped value _).cons ((hnext page row _).cons h)

/-- The last cell of a row. -/
theorem shows_last (value : String) : Shows T ⟨page, row, []⟩ [escaped value, literal "</td>\n        </tr>"]
    ⟨{ page with rows := page.rows ++ [row ++ [value.toList]] }, [], []⟩ :=
  (says_escaped value _).cons shows_close

/-- Parts that are a row with the cells. -/
def Row (T : References) (parts : List (Piece Char)) (cells : List String) : Prop :=
  ∀ page : Page, Shows T ⟨page, [], []⟩ parts
    ⟨{ page with rows := page.rows ++ [cells.map String.toList] }, [], []⟩

/-- Rows are shown one after the other. -/
theorem shows_rows {ρ : Type} {parts : ρ → List (Piece Char)} {cells : ρ → List String}
    (h : ∀ x, Row T (parts x) (cells x)) (rows : List ρ) (page : Page) : Shows T ⟨page, [], []⟩ (rows.flatMap parts)
      ⟨{ page with rows := page.rows ++ rows.map fun x => (cells x).map String.toList }, [], []⟩ := by
  induction rows generalizing page with
  | nil =>
    rw [List.map_nil, List.append_nil]
    exact shows_nil _
  | cons x rows ih =>
    have hrest := (h x page).append (ih _)
    rwa [List.append_assoc] at hrest

/-- The cells of a row of the transactions page. -/
def transactionCells (L : Locale) (e : LedgerEntryDto) : List String :=
  [e.direction, (if e.direction = "CREDIT" then "+" else "-") ++ e.amount ++ " " ++ e.currency, e.referenceType,
    e.description, formatDateTime L e.createdAt]

/-- The cells of a row of the charges page. -/
def commissionCells (L : Locale) (c : CommissionDto) : List String :=
  [dateLocaleString L c.createdAt, c.tradeId, c.user.getD "—", c.userId.getD "—", c.symbol, c.side,
    fixed2 c.quantity, "-" ++ fixed2 c.amount]

/-- The cells of a row of the trades page. -/
def tradeCells (L : Locale) (pnlByTrade : List (String × Option ℚ)) (t : TradeListItem) : List String :=
  [formatDateTime L t.executedAt, t.tradeId, t.clientUserLabel.getD "—", t.clientUserId.getD "—", t.symbol, t.side,
    tStatus t.toTradeItem, fixed2 t.quantity, t.price, t.chargesTotal.getD "0",
    ((mapGet pnlByTrade t.tradeId).join.map (fmtPnl L)).getD "—"]

theorem row_transaction (L : Locale) (e : LedgerEntryDto) : Row T (transactionRow L e) (transactionCells L e) := by
  intro page
  have hsign : Says T [literal (if e.direction = "CREDIT" then "+" else "-")]
      (if e.direction = "CREDIT" then "+" else "-").toList := by
    refine says_literal ?_
    split_ifs
    · exact plain_ofList _ rfl
    · exact plain_ofList _ rfl
  have hamount : Says T [literal (if e.direction = "CREDIT" then "+" else "-"), escaped e.amount, literal " ",
      escaped e.currency] ((if e.direction = "CREDIT" then "+" else "-") ++ e.amount ++ " " ++ e.currency).toList := by
    have hparts := hsign.cons ((says_escaped e.amount).cons
      ((says_plain [' '] rfl).cons (says_escaped e.currency)))
    simpa only [String.toList_append, List.append_assoc] using hparts
  have hcell : ∀ {row rest v'}, Shows T ⟨page, row ++
      [((if e.direction = "CREDIT" then "+" else "-") ++ e.amount ++ " " ++ e.currency).toList], []⟩ rest v' →
      Shows T ⟨page, row, []⟩ (literal (if e.direction = "CREDIT" then "+" else "-") :: escaped e.amount ::
        literal " " :: escaped e.currency :: literal "</td>\n          <td>" :: rest) v' :=
    fun h => (hamount _).append ((next_td page _ _).cons h)
  exact shows_open.cons (next_r.cell (hcell (next_td.cell (next_td.cell (shows_last _)))))

theorem row_commission (L : Locale) (c : CommissionDto) : Row T (commissionRow L c) (commissionCells L c) := by
  intro page
  have hamount : Says T [literal "-", escaped (fixed2 c.amount)] ("-" ++ fixed2 c.amount).toList := by
    have hparts := (says_plain ['-'] rfl).cons (says_escaped (fixed2 c.amount)) (T := T)
    rwa [← String.toList_append] at hparts
  have hlast : ∀ row, Shows T ⟨page, row, []⟩ [literal "-", escaped (fixed2 c.amount), literal "</td>\n        </tr>"]
      ⟨{ page with rows := page.rows ++ [row ++ [("-" ++ fixed2 c.amount).toList]] }, [], []⟩ :=
    fun _ => (hamount _).append shows_close
  exact shows_open.cons (next_mono.cell (next_td.cell (next_mono.cell (next_td.cell (next_td.cell
    (next_r.cell (next_r.cell (hlast _))))))))

theorem row_trade (L : Locale) (pnlByTrade : List (String × Option ℚ)) (t : TradeListItem) :
    Row T (tradeRow L pnlByTrade t) (tradeCells L pnlByTrade t) :=
  fun _ => shows_open.cons (next_mono.cell (next_td.cell (next_mono.cell (next_td.cell (next_td.cell (next_td.cell
    (next_r.cell (next_r.cell (next_r.cell (next_r.cell (shows_last _)))))))))))

/-- Cells that go through `esc` are added to the row. -/
theorem shows_cells (cells : List String) (row : List (List Char)) : Shows T ⟨page, row, []⟩
    (cells.flatMap fun cell => [literal "<td>", escaped cell, literal "</td>"])
    ⟨page, row ++ cells.map String.toList, []⟩ := by
  induction cells generalizing row with
  | nil =>
    rw [List.map_nil, List.append_nil]
    exact shows_nil _
  | cons cell cells ih =>
    have hopen : Shows T ⟨page, row, []⟩ [literal "<td>"] ⟨page, row, []⟩ := shows_literal _ rfl rfl
    have hclose : ∀ text, Shows T ⟨page, row, text⟩ [literal "</td>"] ⟨page, row ++ [text], []⟩ :=
      fun _ => shows_literal _ rfl rfl
    have hrest := (hopen.cons ((says_escaped cell _).cons (hclose _))).append (ih _)
    rwa [List.append_assoc] at hrest

theorem row_wallet (cells : List String) : Row T (walletRow cells) cells := by
  intro page
  have hopen : Shows T ⟨page, [], []⟩ [literal "<tr>"] ⟨page, [], []⟩ := shows_literal _ rfl rfl
  have hclose : ∀ row, Shows T ⟨page, row, []⟩ [literal "</tr>"] ⟨{ page with rows := page.rows ++ [row] }, [], []⟩ :=
    fun _ => shows_literal _ rfl rfl
  exact (hopen.append (shows_cells cells [])).append (hclose _)

end Rows

section Reports

variable {T : References} {L : Locale} {d : Dates}

/-- Parts that are the head of the table. -/
def Head (T : References) (parts : List (Piece Char)) (names : List String) : Prop :=
  ∀ title heading caption, ∃ text, Shows T ⟨⟨title, heading, caption, [], []⟩, [], []⟩ parts
    ⟨⟨title, heading, caption, names.map String.toList, []⟩, [], text⟩

/-- Parts that are rows of the table. -/
def Body (T : References) (parts : List (Piece Char)) (rows : List (List String)) : Prop :=
  ∀ page : Page, Shows T ⟨page, [], []⟩ parts
    ⟨{ page with rows := page.rows ++ rows.map (·.map String.toList) }, [], []⟩

theorem body_rows {ρ : Type} {parts : ρ → List (Piece Char)} {cells : ρ → List String}
    (h : ∀ x, Row T (parts x) (cells x)) (rows : List ρ) : Body T (rows.flatMap parts) (rows.map cells) := by
  intro page
  rw [List.map_map]
  exact shows_rows h rows page

theorem says_css : ∃ text, Says T css text :=
  ⟨_, (says_plain _ rfl).cons ((says_plain _ rfl).cons ((says_plain _ rfl).cons ((says_plain _ rfl).cons
    ((says_plain _ rfl).cons ((says_plain _ rfl).cons (says_plain _ rfl))))))⟩

section Template

variable {page : Page} {row : List (List Char)} {text : List Char}

theorem shows_start : Shows T ⟨page, row, text⟩
    [literal "<!doctype html><html><head><meta charset=\"utf-8\"/>\n      <title>"] ⟨page, row, []⟩ :=
  shows_literal _ rfl rfl

theorem shows_title : Shows T ⟨page, row, text⟩ [literal "</title>\n      <style>"]
    ⟨{ page with title := text }, row, []⟩ := shows_literal _ rfl rfl

theorem shows_style : Shows T ⟨page, row, text⟩ [literal "\n      </style></head><body>\n      <h1>"]
    ⟨page, row, []⟩ := shows_literal _ rfl rfl

theorem shows_heading : Shows T ⟨page, row, text⟩ [literal "</h1>\n      <div class=\"meta\">Date range: "]
    ⟨{ page with heading := text }, row, "Date range: ".toList⟩ := shows_literal _ rfl rfl

theorem shows_caption : Shows T ⟨page, row, text⟩ [literal "</div>\n      <table>\n        <thead><tr>"]
    ⟨{ page with caption := text }, row, []⟩ := shows_literal _ rfl rfl

theorem shows_head : Shows T ⟨page, row, text⟩ [literal "</tr></thead>\n        <tbody>"]
    ⟨{ page with rows := [] }, [], []⟩ := shows_literal _ rfl rfl

theorem shows_table : Shows T ⟨page, row, text⟩ [literal "</tbody>\n      </table>\n      <script>"]
    ⟨page, row, []⟩ := shows_literal _ rfl rfl

theorem shows_script : Shows T ⟨page, row, text⟩ [literal "</script>\n    </body></html>"] ⟨page, row, []⟩ :=
  shows_literal _ rfl rfl

end Template

/-- A report shows what its parts are. -/
theorem shows_report {title heading caption head body : List (Piece Char)} {style : String}
    {titleText headingText captionText : List Char} {names : List String} {rows : List (List String)}
    (htitle : Says T title titleText) (hheading : Says T heading headingText) (hstyle : Plain style.toList)
    (hcaption : Says T caption captionText) (hhead : Head T head names) (hbody : Body T body rows) :
    Shows T ⟨⟨[], [], [], [], []⟩, [], []⟩ (report title heading style caption head body)
      ⟨⟨titleText, headingText, "Date range: ".toList ++ captionText, names.map String.toList,
        rows.map (·.map String.toList)⟩, [], []⟩ := by
  obtain ⟨rules, hcss⟩ := says_css (T := T)
  obtain ⟨left, hhead⟩ := hhead titleText headingText ("Date range: ".toList ++ captionText)
  have hscript : Says T [literal "window.onload=function()\x7bwindow.print();\x7d"] _ := says_plain _ rfl
  have htop : Shows T ⟨⟨[], [], [], [], []⟩, [], []⟩ _ ⟨⟨titleText, [], [], [], []⟩, [], []⟩ :=
    (shows_start.append (htitle _)).append (shows_title.append ((hcss _).append
      ((says_literal hstyle _).cons shows_style)))
  have hmiddle : Shows T ⟨⟨titleText, [], [], [], []⟩, [], []⟩ _
      ⟨⟨titleText, headingText, "Date range: ".toList ++ captionText, [], []⟩, [], []⟩ :=
    (hheading _).append (shows_heading.append ((hcaption _).append shows_caption))
  have htable : Shows T ⟨⟨titleText, headingText, "Date range: ".toList ++ captionText, [], []⟩, [], []⟩ _
      ⟨⟨titleText, headingText, "Date range: ".toList ++ captionText, names.map String.toList,
        rows.map (·.map String.toList)⟩, [], []⟩ :=
    hhead.append (shows_head.append ((hbody _).append (shows_table.cons ((hscript _).cons shows_script))))
  simpa only [report, List.append_assoc] using htop.append (hmiddle.append htable)

section Heads

variable {page : Page} {row : List (List Char)} {text : List Char}

theorem shows_th : Shows T ⟨page, row, text⟩ [literal "<th>"] ⟨page, row, []⟩ := shows_literal _ rfl rfl

theorem shows_thRight : Shows T ⟨page, row, text⟩ [literal "<th class=\"r\">"] ⟨page, row, []⟩ :=
  shows_literal _ rfl rfl

theorem shows_thEnd : Shows T ⟨page, row, text⟩ [literal "</th>"]
    ⟨{ page with head := page.head ++ [text] }, row, []⟩ := shows_literal _ rfl rfl

theorem th_name (name : List Char) (h : name.all (fun c => c ≠ '<' && c ≠ '&') = true) :
    Shows T ⟨page, row, text⟩ (th (String.ofList name))
      ⟨{ page with head := page.head ++ [(String.ofList name).toList] }, row, []⟩ :=
  shows_th.cons ((says_plain name h _).cons shows_thEnd)

theorem thRight_name (name : List Char) (h : name.all (fun c => c ≠ '<' && c ≠ '&') = true) :
    Shows T ⟨page, row, text⟩ (thRight (String.ofList name))
      ⟨{ page with head := page.head ++ [(String.ofList name).toList] }, row, []⟩ :=
  shows_thRight.cons ((says_plain name h _).cons shows_thEnd)

theorem says_blanks : Says T [literal "\n          "] "\n          ".toList := says_plain _ rfl

theorem says_blank : Says T [literal "\n        "] "\n        ".toList := says_plain _ rfl

/-- Names that go through `esc` are added to the head. -/
theorem shows_names (names : List String) (page : Page) : Shows T ⟨page, [], []⟩ (walletHead names)
    ⟨{ page with head := page.head ++ names.map String.toList }, [], []⟩ := by
  induction names generalizing page with
  | nil =>
    rw [List.map_nil, List.append_nil]
    exact shows_nil _
  | cons name names ih =>
    have hname : Shows T ⟨page, [], []⟩ [literal "<th>", escaped name, literal "</th>"]
        ⟨{ page with head := page.head ++ [name.toList] }, [], []⟩ :=
      shows_th.cons ((says_escaped name _).cons shows_thEnd)
    have hrest := hname.append (ih { page with head := page.head ++ [name.toList] })
    rwa [List.append_assoc] at hrest

theorem head_wallet (names : List String) : Head T (walletHead names) names :=
  fun _ _ _ => ⟨[], shows_names names _⟩

theorem head_transactions : Head T ([literal "\n          "] ++ th "Type" ++ thRight "Amount" ++ th "Reference" ++
    th "Description" ++ th "Date" ++ [literal "\n        "])
      ["Type", "Amount", "Reference", "Description", "Date"] :=
  fun _ _ _ => ⟨_,
    (says_blanks _).append (th_name _ rfl) |>.append (thRight_name _ rfl) |>.append (th_name _ rfl)
      |>.append (th_name _ rfl) |>.append (th_name _ rfl) |>.append (says_blank _)⟩

theorem head_commissions : Head T ([literal "\n          "] ++ th "Date" ++ th "Trade ID" ++ th "User" ++
    th "User ID" ++ th "Symbol" ++ [literal "\n          "] ++ th "Side" ++ thRight "Lots" ++ thRight "Commission" ++
      [literal "\n        "])
      ["Date", "Trade ID", "User", "User ID", "Symbol", "Side", "Lots", "Commission"] :=
  fun _ _ _ => ⟨_,
    (says_blanks _).append (th_name _ rfl) |>.append (th_name _ rfl) |>.append (th_name _ rfl)
      |>.append (th_name _ rfl) |>.append (th_name _ rfl) |>.append (says_blanks _) |>.append (th_name _ rfl)
      |>.append (thRight_name _ rfl) |>.append (thRight_name _ rfl) |>.append (says_blank _)⟩

theorem head_trades : Head T ([literal "\n          "] ++ th "Time" ++ th "Trade ID" ++ th "User" ++ th "User ID" ++
    th "Symbol" ++ [literal "\n          "] ++ th "Side" ++ th "Status" ++ thRight "Qty" ++ thRight "Price" ++
      [literal "\n          "] ++ thRight "Charges" ++
      [literal "<th class=\"r\">", literal "P", escaped "&", literal "L", literal "</th>", literal "\n        "])
      ["Time", "Trade ID", "User", "User ID", "Symbol", "Side", "Status", "Qty", "Price", "Charges", "P&L"] := by
  intro title heading caption
  have hname : Says T [literal "P", escaped "&", literal "L"] ("P".toList ++ ("&".toList ++ "L".toList)) :=
    (says_plain _ rfl).cons ((says_escaped "&").cons (says_plain _ rfl))
  have hlast : ∀ page text, Shows T ⟨page, [], text⟩ ([literal "<th class=\"r\">"] ++
      ([literal "P", escaped "&", literal "L"] ++ [literal "</th>", literal "\n        "]))
      ⟨{ page with head := page.head ++ ["P&L".toList] }, [], "\n        ".toList⟩ := by
    intro page text
    have htext : ("P&L".toList : List Char) = "P".toList ++ ("&".toList ++ "L".toList) := by simp
    rw [htext]
    exact shows_thRight.append ((hname _).append (shows_thEnd.cons (says_blank _)))
  exact ⟨_,
    (says_blanks _).append (th_name _ rfl) |>.append (th_name _ rfl) |>.append (th_name _ rfl)
      |>.append (th_name _ rfl) |>.append (th_name _ rfl) |>.append (says_blanks _) |>.append (th_name _ rfl)
      |>.append (th_name _ rfl) |>.append (thRight_name _ rfl) |>.append (thRight_name _ rfl)
      |>.append (says_blanks _) |>.append (thRight_name _ rfl) |>.append (hlast _ _)⟩

end Heads

end Reports

/-- A page by its texts. -/
def pageOf (title heading caption : String) (head : List String) (rows : List (List String)) : Page :=
  ⟨title.toList, heading.toList, "Date range: ".toList ++ caption.toList, head.map String.toList,
    rows.map (·.map String.toList)⟩

/-- The caption of most reports. -/
def captionOf (L : Locale) (arrow : String) (d : Dates) (count : ℕ) (what : String) : String :=
  range arrow d ++ " · " ++ toString count ++ what ++ " · Generated " ++ L.generated

/-- What a page prints, as it is to be read. -/
def Printout.shown (L : Locale) (d : Dates) : Printout → Page
  | requests all =>
    let rows := all.filter fun r => inRange L d r.createdAt
    pageOf "Deposit & withdrawal requests report" "Deposit & withdrawal requests"
      (captionOf L " -> " d rows.length " entries") ["Date", "Type", "Method", "Amount", "Note", "Status"]
      (rows.map (requestCells L))
  | history all =>
    let rows := all.filter fun e => inRange L d e.createdAt
    pageOf "Transaction history report" "Transaction history" (captionOf L " -> " d rows.length " entries")
      ["Type", "Amount", "Reference", "Description", "Date"] (rows.map (historyCells L))
  | transactions filter all =>
    let rows := transactionsShown L filter d all
    pageOf "Transactions report" "Transactions report" (captionOf L " -> " d rows.length " entries")
      ["Type", "Amount", "Reference", "Description", "Date"] (rows.map (transactionCells L))
  | commissions items =>
    let rows := commissionsShown L d items
    pageOf "Commissions report" "Commissions report"
      (captionOf L " -> " d rows.length (" entries · Total $" ++ toFixed (total rows) 2))
      ["Date", "Trade ID", "User", "User ID", "Symbol", "Side", "Lots", "Commission"] (rows.map (commissionCells L))
  | trades search all =>
    let rows := tradesShown L search d all
    pageOf "Trades report" "Trades report" (captionOf L " → " d rows.length " trades")
      ["Time", "Trade ID", "User", "User ID", "Symbol", "Side", "Status", "Qty", "Price", "Charges", "P&L"]
      (rows.map (tradeCells L (buildPnlMap toDouble (all.map (·.toTradeItem)))))

section Printouts

variable {T : References} {L : Locale} {d : Dates}

/-- A caption, with what is counted. -/
theorem says_caption {arrow what : String} {count : ℕ} {counted : List (Piece Char)}
    (h : Says T counted what.toList) : Says T ([escaped (range arrow d), literal " · ", literal (toString count)] ++
      (counted ++ [literal " · Generated ", escaped L.generated])) (captionOf L arrow d count what).toList := by
  have hstart : Says T [escaped (range arrow d), literal " · ", literal (toString count)] _ :=
    (says_escaped _).cons ((says_plain _ rfl).cons (says_literal (plain_toString count)))
  have hend : Says T [literal " · Generated ", escaped L.generated] _ :=
    (says_plain _ rfl).cons (says_escaped _)
  have hparts := hstart.append (h.append hend)
  simpa only [captionOf, String.toList_append, List.append_assoc] using hparts

theorem says_entries : Says T [literal " entries"] " entries".toList := says_plain _ rfl

theorem says_trades : Says T [literal " trades"] " trades".toList := says_plain _ rfl

theorem escape_html (text : List Char) : (html T).escape text = esc text := by
  refine List.flatMap_congr fun c _ => ?_
  show (html T).escapeOne c = _
  unfold Escapes.escapeOne
  simp only [html, nameOf]
  split_ifs <;> simp

theorem document_eq (parts : List (Piece Char)) : document parts = parts.flatMap (html T).written := by
  refine List.flatMap_congr fun part _ => ?_
  cases part with
  | fixed text => rfl
  | shown text => exact (escape_html text).symm

/-- A document is read as a viewer goes through its parts. -/
theorem read_of_shows {parts : List (Piece Char)} {page : Page} {row : List (List Char)} {text : List Char}
    (h : Shows T ⟨⟨[], [], [], [], []⟩, [], []⟩ parts ⟨page, row, text⟩) :
    view ((html T).read (document parts)) = page ∧
      tags ((html T).read (document parts)) = tags ((html T).read (document (parts.map Piece.blank))) := by
  constructor
  · rw [document_eq (T := T), (html T).read_parts h.settled, view, h.seen]
  · rw [document_eq (T := T), document_eq (T := T), (html T).tags_read h.settled]

/-- The report of the wallet page, for any table. -/
theorem shows_pdfBtn (label : String) (head : List String) (rows : List (List String)) :
    Shows T ⟨⟨[], [], [], [], []⟩, [], []⟩ (pdfBtn L label head rows d)
      ⟨pageOf (label ++ " report") label (captionOf L " -> " d rows.length " entries") head rows, [], []⟩ := by
  have htitle : Says T [escaped label, literal " report"] (label ++ " report").toList := by
    have hparts := (says_escaped label).cons (says_literal (T := T) (s := " report") (plain_ofList _ rfl))
    rwa [← String.toList_append] at hparts
  have hbody : Body T (rows.flatMap walletRow) rows := by
    have hrows := body_rows (T := T) row_wallet rows
    rwa [List.map_id'] at hrows
  exact shows_report htitle (says_escaped label) (plain_ofList [] rfl)
    (says_caption says_entries) (head_wallet head) hbody

end Printouts

end LpPlatform.PrintedReports
