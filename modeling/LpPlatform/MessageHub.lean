import Mathlib.Data.List.Basic
import Mathlib.Logic.Function.Basic
import LpPlatform.StepRuns

/-!
# Messages, rooms and members

Messages wait in a queue, in the order they were published in, and are
dispatched one after the other to the members of their room. A member may join
rooms and leave the hub, and the first message of the queue may be lost. A
member is told nothing that was not published to a room of its own. Unless a
message is lost or the member changes rooms, it is told what was published to
its rooms, each message once and in order.
-/

namespace LpPlatform.MessageHub

open StepRuns

variable {ρ μ : Type} [DecidableEq ρ]

/-- A member, its rooms and what it has been told. -/
structure Member (ρ μ : Type) where
  rooms : List ρ
  received : List μ

/-- The queue and the members. -/
structure Hub (ρ μ : Type) where
  /-- Published, and not dispatched yet. -/
  queue : List μ
  members : ℕ → Option (Member ρ μ)
  /-- Everything published so far, as an observer counts. -/
  published : List μ

/-- What can happen at a hub. -/
inductive HubEvent (ρ μ : Type) where
  | publish (x : μ)
  | dispatch
  | lose
  | connect (s : ℕ)
  | join (s : ℕ) (r : ρ)
  | leave (s : ℕ)

/-- Nothing has been published and nobody is there. -/
def Hub.empty : Hub ρ μ := ⟨[], fun _ => none, []⟩

/-- The message is for one of the member's rooms. -/
def Member.hears (room : μ → Option ρ) (m : Member ρ μ) (x : μ) : Bool :=
  (room x).any fun r => decide (r ∈ m.rooms)

/-- The member after a message has been dispatched. -/
def Member.tell (room : μ → Option ρ) (x : μ) (m : Member ρ μ) : Member ρ μ :=
  if m.hears room x then { m with received := m.received ++ [x] } else m

/-- Set or remove a member. -/
def Hub.put (h : Hub ρ μ) (s : ℕ) (m : Option (Member ρ μ)) : Hub ρ μ :=
  { h with members := Function.update h.members s m }

/-- The hub after an event, unless it cannot happen. -/
def Hub.step (room : μ → Option ρ) (h : Hub ρ μ) : HubEvent ρ μ → Option (Hub ρ μ)
  | .publish x => some { h with queue := h.queue ++ [x], published := h.published ++ [x] }
  | .dispatch =>
    match h.queue with
    | [] => none
    | x :: queue => some ⟨queue, fun s => (h.members s).map (Member.tell room x), h.published⟩
  | .lose =>
    match h.queue with
    | [] => none
    | _ :: queue => some { h with queue := queue }
  | .connect s => if h.members s = none then some (h.put s (some ⟨[], []⟩)) else none
  | .join s r => (h.members s).map fun m => h.put s (some { m with rooms := r :: m.rooms })
  | .leave s => some (h.put s none)

section Steps

variable {room : μ → Option ρ} {h h' : Hub ρ μ} {s : ℕ} {m : Member ρ μ}

@[simp] theorem tell_rooms (x : μ) : (m.tell room x).rooms = m.rooms := by
  unfold Member.tell
  split <;> rfl

theorem tell_received (x : μ) :
    (m.tell room x).received = m.received ++ [x].filter (m.hears room) := by
  unfold Member.tell
  split
  · rename_i hears
    simp [hears]
  · rename_i hears
    simp [hears]

theorem dispatch_step (hstep : h.step room .dispatch = some h') : ∃ x queue, h.queue = x :: queue ∧
    h' = ⟨queue, fun s => (h.members s).map (Member.tell room x), h.published⟩ := by
  simp only [Hub.step] at hstep
  split at hstep
  · simp at hstep
  · rename_i x queue hqueue
    exact ⟨x, queue, hqueue, (Option.some.inj hstep).symm⟩

theorem lose_step (hstep : h.step room .lose = some h') : ∃ x queue, h.queue = x :: queue ∧
    h' = { h with queue := queue } := by
  simp only [Hub.step] at hstep
  split at hstep
  · simp at hstep
  · rename_i x queue hqueue
    exact ⟨x, queue, hqueue, (Option.some.inj hstep).symm⟩

theorem connect_step (hstep : h.step room (.connect s) = some h') :
    h.members s = none ∧ h' = h.put s (some ⟨[], []⟩) := by
  simp only [Hub.step, Option.ite_none_right_eq_some, Option.some.injEq] at hstep
  exact ⟨hstep.1, hstep.2.symm⟩

/-- What an event makes of the queue. -/
theorem queue_step {e : HubEvent ρ μ} (hstep : h.step room e = some h') :
    (∃ x, e = .publish x ∧ h'.queue = h.queue ++ [x] ∧ h'.published = h.published ++ [x]) ∨
      (h'.published = h.published ∧ ((∃ x, (e = .dispatch ∨ e = .lose) ∧ h.queue = x :: h'.queue) ∨
        (h'.queue = h.queue ∧ e ≠ .dispatch ∧ e ≠ .lose))) := by
  cases e with
  | publish x =>
    obtain rfl := Option.some.inj hstep
    exact Or.inl ⟨x, rfl, rfl, rfl⟩
  | dispatch =>
    obtain ⟨x, queue, hqueue, rfl⟩ := dispatch_step hstep
    exact Or.inr ⟨rfl, Or.inl ⟨x, Or.inl rfl, hqueue⟩⟩
  | lose =>
    obtain ⟨x, queue, hqueue, rfl⟩ := lose_step hstep
    exact Or.inr ⟨rfl, Or.inl ⟨x, Or.inr rfl, hqueue⟩⟩
  | connect t =>
    obtain ⟨-, rfl⟩ := connect_step hstep
    exact Or.inr ⟨rfl, Or.inr ⟨rfl, by simp⟩⟩
  | join t r =>
    obtain ⟨m, -, rfl⟩ := Option.map_eq_some_iff.mp hstep
    exact Or.inr ⟨rfl, Or.inr ⟨rfl, by simp⟩⟩
  | leave t =>
    obtain rfl := Option.some.inj hstep
    exact Or.inr ⟨rfl, Or.inr ⟨rfl, by simp⟩⟩

/-- What an event makes of a member. -/
inductive MemberStep (room : μ → Option ρ) (h : Hub ρ μ) (s : ℕ) :
    HubEvent ρ μ → Member ρ μ → Prop where
  | connected (hnone : h.members s = none) : MemberStep room h s (.connect s) ⟨[], []⟩
  | joined {m : Member ρ μ} (hm : h.members s = some m) (r : ρ) :
    MemberStep room h s (.join s r) { m with rooms := r :: m.rooms }
  | told {m : Member ρ μ} {x : μ} {queue : List μ} (hm : h.members s = some m)
      (hqueue : h.queue = x :: queue) : MemberStep room h s .dispatch (m.tell room x)
  | kept {m : Member ρ μ} {e : HubEvent ρ μ} (hm : h.members s = some m) (he : e ≠ .dispatch) :
    MemberStep room h s e m

theorem member_step {e : HubEvent ρ μ} (hstep : h.step room e = some h') (hm : h'.members s = some m) :
    MemberStep room h s e m := by
  cases e with
  | publish x =>
    obtain rfl := Option.some.inj hstep
    exact .kept hm (by simp)
  | dispatch =>
    obtain ⟨x, queue, hqueue, rfl⟩ := dispatch_step hstep
    obtain ⟨old, hold, rfl⟩ := Option.map_eq_some_iff.mp hm
    exact .told hold hqueue
  | lose =>
    obtain ⟨x, queue, hqueue, rfl⟩ := lose_step hstep
    exact .kept hm (by simp)
  | connect t =>
    obtain ⟨hnone, rfl⟩ := connect_step hstep
    by_cases ht : s = t
    · subst ht
      obtain rfl : ⟨[], []⟩ = m := by simpa [Hub.put] using hm
      exact .connected hnone
    · exact .kept (by simpa [Hub.put, ht] using hm) (by simp)
  | join t r =>
    obtain ⟨old, hold, rfl⟩ := Option.map_eq_some_iff.mp hstep
    by_cases ht : s = t
    · subst ht
      obtain rfl : { old with rooms := r :: old.rooms } = m := by simpa [Hub.put] using hm
      exact .joined hold r
    · exact .kept (by simpa [Hub.put, ht] using hm) (by simp)
  | leave t =>
    obtain rfl := Option.some.inj hstep
    by_cases ht : s = t
    · subst ht
      simp [Hub.put] at hm
    · exact .kept (by simpa [Hub.put, ht] using hm) (by simp)

/-- Whatever a member has been told was for one of its rooms and has been
published. -/
structure Told (room : μ → Option ρ) (h : Hub ρ μ) : Prop where
  queued : ∀ x ∈ h.queue, x ∈ h.published
  received : ∀ s m, h.members s = some m → ∀ x ∈ m.received,
    x ∈ h.published ∧ ∃ r ∈ m.rooms, room x = some r

omit [DecidableEq ρ] in
theorem told_empty : Told room (.empty : Hub ρ μ) :=
  ⟨fun x hx => by simp [Hub.empty] at hx, fun s m hm => by simp [Hub.empty] at hm⟩

theorem told_step {e : HubEvent ρ μ} (ht : Told room h) (hstep : h.step room e = some h') :
    Told room h' := by
  have hgrown : ∀ x ∈ h.published, x ∈ h'.published := by
    rcases queue_step hstep with ⟨x, -, -, hpublished⟩ | ⟨hpublished, -⟩
    · exact fun y hy => hpublished ▸ List.mem_append_left _ hy
    · exact fun y hy => hpublished ▸ hy
  constructor
  · intro x hx
    rcases queue_step hstep with ⟨y, -, hqueue, hpublished⟩ | ⟨-, ⟨y, -, hqueue⟩ | ⟨hqueue, -⟩⟩
    · rw [hqueue, List.mem_append] at hx
      rw [hpublished, List.mem_append]
      exact hx.imp (ht.queued x) id
    · exact hgrown x (ht.queued x (hqueue ▸ List.mem_cons_of_mem y hx))
    · exact hgrown x (ht.queued x (hqueue ▸ hx))
  · intro s m hm x hx
    cases member_step hstep hm with
    | connected hnone => simp at hx
    | joined hold r =>
      obtain ⟨hpublished, r', hr', hroom⟩ := ht.received s _ hold x hx
      exact ⟨hgrown x hpublished, r', List.mem_cons_of_mem r hr', hroom⟩
    | @told old y queue hold hqueue =>
      rw [tell_received, List.mem_append] at hx
      rw [tell_rooms]
      rcases hx with hx | hx
      · obtain ⟨hpublished, hroom⟩ := ht.received s old hold x hx
        exact ⟨hgrown x hpublished, hroom⟩
      · obtain ⟨hxy, hears⟩ := List.mem_filter.mp hx
        obtain rfl := List.mem_singleton.mp hxy
        obtain ⟨r, hroom, hr⟩ := (Option.any_eq_true ..).mp hears
        exact ⟨hgrown x (ht.queued x (hqueue ▸ List.mem_cons_self)), r, of_decide_eq_true hr, hroom⟩
    | kept hold he =>
      obtain ⟨hpublished, hroom⟩ := ht.received s m hold x hx
      exact ⟨hgrown x hpublished, hroom⟩

/-- What a member has been told and what waits for it. -/
def Member.due (room : μ → Option ρ) (m : Member ρ μ) (h : Hub ρ μ) : List μ :=
  m.received ++ h.queue.filter (m.hears room)

/-- The event loses no message and is not about the rooms of a member. -/
def Undisturbed (s : ℕ) (e : HubEvent ρ μ) : Prop :=
  e ≠ .lose ∧ e ≠ .leave s ∧ ∀ r, e ≠ .join s r

/-- An undisturbed member stays where it is. -/
theorem member_stays {e : HubEvent ρ μ} (hm : h.members s = some m) (he : Undisturbed s e)
    (hstep : h.step room e = some h') : ∃ m', h'.members s = some m' := by
  cases e with
  | publish x =>
    obtain rfl := Option.some.inj hstep
    exact ⟨m, hm⟩
  | dispatch =>
    obtain ⟨x, queue, hqueue, rfl⟩ := dispatch_step hstep
    exact ⟨m.tell room x, by simp [hm]⟩
  | lose => exact absurd rfl he.1
  | connect t =>
    obtain ⟨hnone, rfl⟩ := connect_step hstep
    have ht : s ≠ t := by
      rintro rfl
      simp [hm] at hnone
    exact ⟨m, by simp [Hub.put, ht, hm]⟩
  | join t r =>
    obtain ⟨old, hold, rfl⟩ := Option.map_eq_some_iff.mp hstep
    have ht : s ≠ t := by
      rintro rfl
      exact he.2.2 r rfl
    exact ⟨m, by simp [Hub.put, ht, hm]⟩
  | leave t =>
    obtain rfl := Option.some.inj hstep
    have ht : s ≠ t := by
      rintro rfl
      exact he.2.1 rfl
    exact ⟨m, by simp [Hub.put, ht, hm]⟩

/-- One event: what is due grows by what is published. -/
theorem due_step {e : HubEvent ρ μ} (hm : h.members s = some m) (he : Undisturbed s e)
    (hstep : h.step room e = some h') : ∃ m' new, h'.members s = some m' ∧ m'.rooms = m.rooms ∧
      h'.published = h.published ++ new ∧ m'.due room h' = m.due room h ++ new.filter (m.hears room) := by
  obtain ⟨m', hm'⟩ := member_stays hm he hstep
  have hsame : ∀ {n : Member ρ μ}, n.rooms = m.rooms → n.hears room = m.hears room := by
    intro n hn
    funext x
    rw [Member.hears, Member.hears, hn]
  cases member_step hstep hm' with
  | connected hnone => simp [hm] at hnone
  | joined hold r => exact absurd rfl (he.2.2 r)
  | @told old x queue hold hqueue =>
    obtain rfl := Option.some.inj (hm.symm.trans hold)
    rcases queue_step hstep with ⟨y, hy, -⟩ | ⟨hpublished, ⟨y, -, hrest⟩ | ⟨-, hne, -⟩⟩
    · simp at hy
    · rw [hqueue] at hrest
      obtain ⟨rfl, rfl⟩ := List.cons.inj hrest
      refine ⟨_, [], hm', tell_rooms x, by rw [hpublished, List.append_nil], ?_⟩
      rw [Member.due, tell_received, hsame (tell_rooms x), Member.due, hqueue, List.filter_nil,
        List.append_nil, List.append_assoc, ← List.filter_append, List.singleton_append]
    · exact absurd rfl hne
  | kept hold hne =>
    obtain rfl := Option.some.inj (hm.symm.trans hold)
    rcases queue_step hstep with ⟨y, -, hqueue, hpublished⟩ | ⟨hpublished, ⟨y, hy, -⟩ | ⟨hqueue, -⟩⟩
    · exact ⟨_, [y], hm', rfl, hpublished, by
        rw [Member.due, hqueue, List.filter_append, Member.due, List.append_assoc]⟩
    · exact absurd hy (by simp [hne, he.1])
    · exact ⟨_, [], hm', rfl, by rw [hpublished, List.append_nil], by
        rw [Member.due, hqueue, Member.due, List.filter_nil, List.append_nil]⟩

/-- A run: an undisturbed member is told what is published to its rooms, each
message once and in order, but for what still waits. -/
theorem due_run {es : List (HubEvent ρ μ)} (hm : h.members s = some m)
    (hes : ∀ e ∈ es, Undisturbed s e) (hrun : run (Hub.step room) h es = some h') :
    ∃ m' new, h'.members s = some m' ∧ m'.rooms = m.rooms ∧ h'.published = h.published ++ new ∧
      m'.due room h' = m.due room h ++ new.filter (m.hears room) := by
  induction es generalizing h m with
  | nil =>
    obtain rfl : h = h' := Option.some.inj hrun
    exact ⟨m, [], hm, rfl, by simp, by simp⟩
  | cons e es ih =>
    rw [run_cons] at hrun
    obtain ⟨next, hstep, hrest⟩ := Option.bind_eq_some_iff.mp hrun
    obtain ⟨m₁, first, hm₁, hrooms₁, hpublished₁, hdue₁⟩ := due_step hm (hes e List.mem_cons_self) hstep
    obtain ⟨m₂, later, hm₂, hrooms₂, hpublished₂, hdue₂⟩ :=
      ih hm₁ (fun x hx => hes x (List.mem_cons_of_mem e hx)) hrest
    refine ⟨m₂, first ++ later, hm₂, hrooms₂.trans hrooms₁, ?_, ?_⟩
    · rw [hpublished₂, hpublished₁, List.append_assoc]
    · have hsame : m₁.hears room = m.hears room := by
        funext x
        rw [Member.hears, Member.hears, hrooms₁]
      rw [hdue₂, hdue₁, hsame, List.filter_append, List.append_assoc]

end Steps

end LpPlatform.MessageHub
