import LpPlatform.ListPages
import LpPlatform.StepRuns

/-!
# Tables that are shown page by page

The tables of both consoles show one page of their rows. The rows change under
them, by filters and by what is fetched again, and a page that is no longer
there is shown as the last one. The buttons lead from every state to every row,
and from the first page through all rows in order.
-/

namespace LpPlatform.TablePages

open ListPages StepRuns

variable {T : Type}

/-- How a table is cut into pages. -/
structure Pager where
  size : ℕ
  positive : 0 < size
  /-- Whether the button for the next page stops at the last one by itself. -/
  capped : Bool

/-- Both tables of the wallet page. -/
def walletPager : Pager := ⟨5, Nat.succ_pos 4, false⟩

/-- The table of the charges page. -/
def chargesPager : Pager := ⟨5, Nat.succ_pos 4, true⟩

/-- The tables of the trades, the positions and the A-book. -/
def tradesPager : Pager := ⟨10, Nat.succ_pos 9, true⟩

/-- What is shown of a table. -/
structure Paged (T : Type) where
  rows : List T
  current : ℕ
  totalPages : ℕ
  total : ℕ

/-- `paginate`. -/
def paginate (items : List T) (page size : ℕ) : Paged T :=
  let totalPages := pageCount size items.length
  let current := min page totalPages
  ⟨ListPages.page size items current, current, totalPages, items.length⟩

/-- The rows of a table and the state of its page. -/
structure Screen (T : Type) where
  items : List T
  page : ℕ

/-- What happens to a table. -/
inductive Event (T : Type) where
  /-- The rows are fetched again or filtered in another way. -/
  | load (items : List T)
  /-- The first page is asked for, as after a change of the filters. -/
  | reset
  | prev
  | next

/-- What a screen shows. -/
def Screen.shown (p : Pager) (s : Screen T) : Paged T := paginate s.items s.page p.size

/-- Something happens. A button that is disabled cannot be clicked. -/
def Screen.step (p : Pager) (s : Screen T) : Event T → Option (Screen T)
  | .load items => some { s with items }
  | .reset => some { s with page := 1 }
  | .prev => if (s.shown p).current ≤ 1 then none else some { s with page := max 1 (s.page - 1) }
  | .next =>
    if (s.shown p).totalPages ≤ (s.shown p).current then none
    else some { s with page := if p.capped then min (s.shown p).totalPages (s.page + 1) else s.page + 1 }

section Clicks

variable {p : Pager} {s w : Screen T} {target : ℕ}

/-- The number of pages of a screen. -/
def Screen.pages (p : Pager) (s : Screen T) : ℕ := pageCount p.size s.items.length

/-- A click on the button for the next page, capped or not. -/
theorem step_next (h : s.page < s.pages p) : s.step p .next = some { s with page := s.page + 1 } := by
  have hcurrent : ¬ (s.shown p).totalPages ≤ (s.shown p).current := by
    show ¬ s.pages p ≤ min s.page (s.pages p)
    omega
  have hcap : min (s.shown p).totalPages (s.page + 1) = s.page + 1 := Nat.min_eq_right h
  rw [Screen.step, if_neg hcurrent, hcap, ite_self]

/-- On the last page there is no next one. -/
theorem step_next_last (h : s.pages p ≤ s.page) : s.step p .next = none :=
  if_pos (Nat.le_min.mpr ⟨h, Nat.le_refl _⟩)

/-- A click on the button for the page before. -/
theorem step_prev (h : 1 < min s.page (s.pages p)) : s.step p .prev = some { s with page := s.page - 1 } := by
  have hcurrent : ¬ (s.shown p).current ≤ 1 := Nat.not_le.mpr h
  have hpage : max 1 (s.page - 1) = s.page - 1 := by omega
  rw [Screen.step, if_neg hcurrent, hpage]

/-- The page before is shown exactly if the page that was asked for is there. -/
theorem prev_shows_iff (h : 1 < min s.page (s.pages p)) : ∃ s', s.step p .prev = some s' ∧
    ((s'.shown p).current = (s.shown p).current - 1 ↔ s.page ≤ s.pages p) := by
  refine ⟨_, step_prev h, ?_⟩
  show min (s.page - 1) (s.pages p) = min s.page (s.pages p) - 1 ↔ s.page ≤ s.pages p
  omega

/-- Next leads up to any page. -/
theorem nexts_reach {k : ℕ} (h : s.page + k ≤ s.pages p) :
    run (Screen.step p) s (List.replicate k .next) = some { s with page := s.page + k } := by
  induction k generalizing s with
  | zero => rfl
  | succ k ih =>
    have hnext : s.step p .next = some { s with page := s.page + 1 } := step_next (by omega)
    have hrest := ih (s := { s with page := s.page + 1 }) (by
      show s.page + 1 + k ≤ s.pages p
      omega)
    rw [List.replicate_succ, run_cons, hnext, Option.bind_some, hrest, Nat.add_right_comm, Nat.add_assoc]

/-- The button for the page before leads down to any page. -/
theorem prevs_reach (hpos : 0 < target) (h : target ≤ min s.page (s.pages p)) :
    ∃ k s', k ≤ s.page ∧ run (Screen.step p) s (List.replicate k .prev) = some s' ∧ s'.items = s.items ∧
      (s'.shown p).current = target := by
  obtain ⟨page, hpage⟩ : ∃ page, s.page = page := ⟨_, rfl⟩
  induction page generalizing s with
  | zero => omega
  | succ page ih =>
    by_cases hthere : min s.page (s.pages p) = target
    · exact ⟨0, s, Nat.zero_le _, rfl, rfl, hthere⟩
    · have hprev : s.step p .prev = some { s with page := s.page - 1 } := step_prev (by omega)
      obtain ⟨k, s', hk, hrun, hitems, hcurrent⟩ := ih (s := { s with page := s.page - 1 })
        (by
          show target ≤ min (s.page - 1) (s.pages p)
          omega)
        (by
          show s.page - 1 = page
          omega)
      have hk' : k ≤ s.page - 1 := hk
      refine ⟨k + 1, s', by omega, ?_, hitems, hcurrent⟩
      rw [List.replicate_succ, run_cons, hprev, Option.bind_some, hrun]

/-- Pages are counted from one, whatever happens. -/
theorem step_page {e : Event T} (hpage : 0 < s.page) (h : s.step p e = some w) : 0 < w.page := by
  cases e with
  | load items =>
    obtain rfl := Option.some.inj h
    exact hpage
  | reset =>
    obtain rfl := Option.some.inj h
    exact Nat.one_pos
  | prev =>
    obtain ⟨-, hw⟩ := Option.ite_none_left_eq_some.mp h
    obtain rfl := Option.some.inj hw
    exact Nat.lt_of_lt_of_le Nat.one_pos (Nat.le_max_left _ _)
  | next =>
    by_cases hlast : s.pages p ≤ s.page
    · rw [step_next_last hlast] at h
      exact absurd h (by simp)
    · obtain rfl := Option.some.inj ((step_next (Nat.not_le.mp hlast)).symm.trans h)
      exact Nat.succ_pos _

/-- Any page is reached by clicks, as many as the pages that are passed. -/
theorem clicks_reach (hpage : 0 < s.page) (hpos : 0 < target) (h : target ≤ s.pages p) :
    ∃ clicks s', (∀ e ∈ clicks, e = .prev ∨ e = .next) ∧ clicks.length ≤ s.page + target ∧
      run (Screen.step p) s clicks = some s' ∧ s'.items = s.items ∧ (s'.shown p).current = target := by
  by_cases hdown : target ≤ min s.page (s.pages p)
  · obtain ⟨k, s', hk, hrun, hitems, hcurrent⟩ := prevs_reach hpos hdown
    refine ⟨List.replicate k .prev, s', fun e he => .inl (List.eq_of_mem_replicate he), ?_, hrun, hitems, hcurrent⟩
    rw [List.length_replicate]
    omega
  · have hup : s.page + (target - s.page) = target := by omega
    refine ⟨List.replicate (target - s.page) .next, { s with page := target },
      fun e he => .inr (List.eq_of_mem_replicate he), ?_, ?_, rfl, Nat.min_eq_left h⟩
    · rw [List.length_replicate]
      omega
    · rw [nexts_reach (by omega), hup]

/-- From the first page, Next shows all rows in order, and then ends. -/
theorem next_shows_all (p : Pager) (s : Screen T) : ∃ views : List (Screen T), views.length = s.pages p ∧
    (∀ k, run (Screen.step p) s (.reset :: List.replicate k .next) = views[k]?) ∧
    views.flatMap (fun view => (view.shown p).rows) = s.items := by
  have hreset : ∀ k, run (Screen.step p) s (.reset :: List.replicate k .next) =
      run (Screen.step p) { s with page := 1 } (List.replicate k .next) := fun _ => rfl
  have hpages : ∀ page, Screen.pages p { s with page := page } = s.pages p := fun _ => rfl
  refine ⟨(List.range (s.pages p)).map fun k => { s with page := k + 1 }, by simp, fun k => ?_, ?_⟩
  · rw [hreset]
    by_cases hk : k < s.pages p
    · have hrun := nexts_reach (p := p) (s := { s with page := 1 }) (k := k) (by
        show 1 + k ≤ s.pages p
        omega)
      rw [hrun, Nat.add_comm]
      simp [hk]
    · obtain ⟨m, hm⟩ : ∃ m, s.pages p = m + 1 := Nat.exists_eq_add_one.mpr (pageCount_pos _)
      have hsplit : List.replicate k (Event.next : Event T) =
          List.replicate m .next ++ .next :: List.replicate (k - (m + 1)) .next := by
        rw [← List.replicate_succ, List.replicate_append_replicate]
        congr 1
        omega
      have hrun := nexts_reach (p := p) (s := { s with page := 1 }) (k := m) (by
        show 1 + m ≤ s.pages p
        omega)
      have hend : Screen.step p { s with page := 1 + m } .next = none := step_next_last (by
        show s.pages p ≤ 1 + m
        omega)
      rw [hsplit, run_append, hrun, Option.bind_some, run_cons, hend]
      simp [hk]
  · rw [List.flatMap_map]
    refine Eq.trans (List.flatMap_congr fun k hk => ?_) (pages_all p.positive s.items)
    have hk' : k + 1 ≤ s.pages p := List.mem_range.mp hk
    show ListPages.page p.size s.items (min (k + 1) (s.pages p)) = ListPages.page p.size s.items (k + 1)
    rw [Nat.min_eq_left hk']

end Clicks

/-- However the rows change under a table and whatever is clicked, it shows a
page that is there, no more rows than a page has, and none only if there is
none; every row is some clicks on buttons that are not disabled away; and from
the first page the button for the next one shows all rows once, in order. -/
theorem rows_in_reach (p : Pager) {s w : Screen T} {events : List (Event T)} (hstart : s.page = 1)
    (h : Visits (Screen.step p) s events w) :
    (1 ≤ (w.shown p).current ∧ (w.shown p).current ≤ (w.shown p).totalPages ∧ (w.shown p).rows.length ≤ p.size ∧
      ((w.shown p).rows = [] → w.items = [])) ∧
    (∀ index (hindex : index < w.items.length), ∃ clicks w', (∀ e ∈ clicks, e = .prev ∨ e = .next) ∧
      clicks.length ≤ w.page + (w.shown p).totalPages ∧ run (Screen.step p) w clicks = some w' ∧
      w'.items = w.items ∧ w.items.get ⟨index, hindex⟩ ∈ (w'.shown p).rows) ∧
    ∃ views : List (Screen T), views.length = (w.shown p).totalPages ∧
      (∀ k, run (Screen.step p) w (.reset :: List.replicate k .next) = views[k]?) ∧
      views.flatMap (fun view => (view.shown p).rows) = w.items := by
  have hpage : 0 < w.page := visits_of_step (I := fun s : Screen T => 0 < s.page)
    (fun _ _ _ hi hstep => step_page hi hstep) (by rw [hstart]; exact Nat.one_pos) h
  have hpages : 0 < w.pages p := pageCount_pos _
  refine ⟨⟨Nat.le_min.mpr ⟨hpage, hpages⟩, Nat.min_le_right _ _, length_page_le, fun hrows => ?_⟩,
    fun index hindex => ?_, next_shows_all p w⟩
  · exact eq_nil_of_page p.positive (Nat.lt_min.mpr ⟨hpage, hpages⟩) (Nat.min_le_right _ _) hrows
  · obtain ⟨clicks, w', hclicks, hlength, hrun, hitems, hcurrent⟩ :=
      clicks_reach (p := p) hpage (Nat.succ_pos (index / p.size)) (pageOf_le p.positive hindex)
    have hbound : pageOf p.size index ≤ w.pages p := pageOf_le p.positive hindex
    refine ⟨clicks, w', hclicks, Nat.le_trans hlength (Nat.add_le_add_left hbound _), hrun, hitems, ?_⟩
    show w.items.get ⟨index, hindex⟩ ∈ ListPages.page p.size w'.items (w'.shown p).current
    rw [hcurrent, hitems]
    exact mem_page p.positive hindex

/-- Seven trades in the wallet, of which two are gone once the second page is
asked for. -/
def shrinking : List (Event ℕ) := [.load [1, 2, 3, 4, 5, 6, 7], .next, .load [1, 2, 3, 4, 5]]

theorem rows_in_reach_shrinking : ∃ w, run (Screen.step walletPager) (⟨[], 1⟩ : Screen ℕ) shrinking = some w ∧
    w.page = 2 ∧ (w.shown walletPager).current = 1 ∧ ((w.shown walletPager).rows = [] → w.items = []) := by
  have hrun : run (Screen.step walletPager) (⟨[], 1⟩ : Screen ℕ) shrinking = some ⟨[1, 2, 3, 4, 5], 2⟩ := rfl
  exact ⟨_, hrun, rfl, rfl, (rows_in_reach walletPager rfl (visits_last hrun)).1.2.2.2⟩

end LpPlatform.TablePages
