import WebrtcCore.Verified.OrderedMap
import WebrtcCore.Verified.Posting
import WebrtcCore.Verified.Simulation

/-!
# The order in which a task queue runs its tasks

Port of `PostTask`, `PostDelayedTask` and `GetNextTask` of `TaskQueueStdlib`.  Immediate tasks
wait in a FIFO and delayed tasks in a map sorted by fire time.  Both get a number from
`thread_posting_order_`, an immediate task before the increment and a delayed task after it, so
that an immediate task may share the number of the delayed task posted right before it.
`order_lt_iff` is why the comparison in `GetNextTask` still agrees with the posting order.
The counter has 64 bits in the source: there are fewer than `2 ^ 64` posts, and it counts no
further (`threadPostingOrder_le`).

The abstract model numbers all posts in one sequence and picks among everything that waits.
-/

namespace WebrtcCore.Ports.TaskQueue

open Verified Heap OrderedMap Posting Simulation List

/-! ### The task queue -/

structure DelayedEntryTimeout where
  nextFireAtMs : Int
  order : Nat
deriving DecidableEq, Repr

/-- `DelayedEntryTimeout::operator<`. -/
def DelayedEntryTimeout.Lt (a b : DelayedEntryTimeout) : Prop :=
  a.nextFireAtMs < b.nextFireAtMs ∨ a.nextFireAtMs = b.nextFireAtMs ∧ a.order < b.order
  deriving Decidable

theorem DelayedEntryTimeout.strictWeak : StrictWeak DelayedEntryTimeout.Lt where
  asymm a b := by
    simp only [DelayedEntryTimeout.Lt]
    omega
  neg_trans a b c := by
    simp only [DelayedEntryTimeout.Lt]
    omega

structure NextTask (τ : Type) where
  finalTask : Bool := false
  runTask : Option τ := none
  sleepTimeMs : Int := 0
deriving DecidableEq, Repr

/-- What `pending_lock_` guards. -/
structure TaskQueueStdlib (τ : Type) where
  threadShouldQuit : Bool := false
  threadPostingOrder : Nat := 0
  pendingQueue : List (Nat × τ) := []
  delayedQueue : List (DelayedEntryTimeout × τ) := []
deriving DecidableEq, Repr

variable {τ : Type}

def TaskQueueStdlib.postTask (t : TaskQueueStdlib τ) (task : τ) : TaskQueueStdlib τ :=
  { t with
    threadPostingOrder := t.threadPostingOrder + 1
    pendingQueue := t.pendingQueue ++ [(t.threadPostingOrder, task)] }

def TaskQueueStdlib.postDelayedTask (t : TaskQueueStdlib τ) (now : Int) (task : τ)
    (milliseconds : Nat) : TaskQueueStdlib τ :=
  { t with
    threadPostingOrder := t.threadPostingOrder + 1
    delayedQueue := assign DelayedEntryTimeout.Lt
      ⟨now + milliseconds, t.threadPostingOrder + 1⟩ task t.delayedQueue }

/-- The end of `GetNextTask`, where no delayed task is due. -/
def TaskQueueStdlib.nextPending (t : TaskQueueStdlib τ) (sleepTimeMs : Int) :
    NextTask τ × TaskQueueStdlib τ :=
  match t.pendingQueue with
  | [] => ({ sleepTimeMs }, t)
  | (_, entryRun) :: others =>
    ({ runTask := some entryRun, sleepTimeMs }, { t with pendingQueue := others })

def TaskQueueStdlib.getNextTask (t : TaskQueueStdlib τ) (tick : Int) :
    NextTask τ × TaskQueueStdlib τ :=
  if t.threadShouldQuit then ({ finalTask := true }, t)
  else
    match t.delayedQueue with
    | [] => t.nextPending 0
    | (delayInfo, delayRun) :: others =>
      if delayInfo.nextFireAtMs ≤ tick then
        match t.pendingQueue with
        | [] => ({ runTask := some delayRun }, { t with delayedQueue := others })
        | (entryOrder, entryRun) :: entries =>
          if entryOrder < delayInfo.order then
            ({ runTask := some entryRun }, { t with pendingQueue := entries })
          else ({ runTask := some delayRun }, { t with delayedQueue := others })
      else t.nextPending (delayInfo.nextFireAtMs - tick)

/-! ### Runs -/

inductive Op (τ : Type) where
  | postTask (task : τ)
  | postDelayedTask (task : τ) (milliseconds : Nat)
  | getNextTask
deriving DecidableEq, Repr

/-- A call and what the clock shows during it. -/
structure Call (τ : Type) where
  now : Int
  op : Op τ
deriving DecidableEq, Repr

inductive Answer (τ : Type) where
  | done
  | next (result : NextTask τ)
deriving DecidableEq, Repr

def step (t : TaskQueueStdlib τ) (c : Call τ) : Answer τ × TaskQueueStdlib τ :=
  match c.op with
  | .postTask task => (.done, t.postTask task)
  | .postDelayedTask task milliseconds => (.done, t.postDelayedTask c.now task milliseconds)
  | .getNextTask => (.next (t.getNextTask c.now).1, (t.getNextTask c.now).2)

section Counter

variable (t : TaskQueueStdlib τ)

theorem TaskQueueStdlib.getNextTask_threadPostingOrder (tick : Int) :
    (t.getNextTask tick).2.threadPostingOrder = t.threadPostingOrder := by
  unfold getNextTask nextPending
  split
  · rfl
  · repeat' split
    all_goals rfl

theorem threadPostingOrder_le (calls : List (Call τ)) :
    (runT step t calls).2.threadPostingOrder ≤ t.threadPostingOrder + calls.length := by
  induction calls generalizing t with
  | nil => exact Nat.le_refl _
  | cons c rest ih =>
    have hstep : (step t c).2.threadPostingOrder ≤ t.threadPostingOrder + 1 := by
      obtain ⟨now, op⟩ := c
      cases op with
      | postTask => exact Nat.le_refl _
      | postDelayedTask => exact Nat.le_refl _
      | getNextTask => exact Nat.le_succ_of_le (t.getNextTask_threadPostingOrder now).le
    rw [length_cons]
    exact (ih _).trans (by omega)

end Counter

/-! ### The posts in one sequence -/

/-- What waits, and the history: every post in its order, and every entry returned
with the clock of the call that returned it. -/
structure Schedule (τ : Type) where
  pending : List (Entry τ) := []
  delayed : List (Entry τ) := []
  posts : List (Entry τ) := []
  returned : List (Entry τ × Int) := []

namespace Schedule

/-- The entry that a post creates. -/
def entry (q : Schedule τ) (due : Option Int) (task : τ) : Entry τ := ⟨q.posts.length, due, task⟩

def post (q : Schedule τ) (task : τ) : Schedule τ :=
  { q with
    pending := q.pending ++ [q.entry none task]
    posts := q.posts ++ [q.entry none task] }

def delay (q : Schedule τ) (fireAt : Int) (task : τ) : Schedule τ :=
  { q with
    delayed := q.delayed ++ [q.entry (some fireAt) task]
    posts := q.posts ++ [q.entry (some fireAt) task] }

/-- The delayed entry that fires before all others. -/
structure Earliest (q : Schedule τ) (d : Entry τ) : Prop where
  mem : d ∈ q.delayed
  before : ∀ e ∈ q.delayed, e = d ∨ d.Before e

def takePending (q : Schedule τ) (now : Int) (e : Entry τ) (rest : List (Entry τ)) :
    Schedule τ :=
  { q with pending := rest, returned := q.returned ++ [(e, now)] }

def takeDelayed (q : Schedule τ) (now : Int) (d : Entry τ) : Schedule τ :=
  { q with
    delayed := q.delayed.filter (·.number != d.number)
    returned := q.returned ++ [(d, now)] }

/-- What a call may answer and do.  The sleep time is left open where there is a task
to run. -/
inductive Acts (q : Schedule τ) : Call τ → Answer τ → Schedule τ → Prop
  | postTask (now : Int) (task : τ) : Acts q ⟨now, .postTask task⟩ .done (q.post task)
  | postDelayedTask (now : Int) (task : τ) (milliseconds : Nat) :
      Acts q ⟨now, .postDelayedTask task milliseconds⟩ .done
        (q.delay (now + milliseconds) task)
  | pending (now sleepTimeMs : Int) (e : Entry τ) (rest : List (Entry τ))
      (hpending : q.pending = e :: rest)
      (hturn : ∀ d, q.Earliest d → d.isDue now = true → e.number < d.number) :
      Acts q ⟨now, .getNextTask⟩ (.next ⟨false, some e.item, sleepTimeMs⟩)
        (q.takePending now e rest)
  | delayed (now sleepTimeMs : Int) (d : Entry τ) (hearliest : q.Earliest d)
      (hdue : d.isDue now = true) (hturn : ∀ e ∈ q.pending, d.number < e.number) :
      Acts q ⟨now, .getNextTask⟩ (.next ⟨false, some d.item, sleepTimeMs⟩)
        (q.takeDelayed now d)
  | idle (now : Int) (hpending : q.pending = []) (hdelayed : q.delayed = []) :
      Acts q ⟨now, .getNextTask⟩ (.next ⟨false, none, 0⟩) q
  | sleep (now fireAt : Int) (d : Entry τ) (hpending : q.pending = [])
      (hearliest : q.Earliest d) (hfireAt : d.due = some fireAt) (hlater : now < fireAt) :
      Acts q ⟨now, .getNextTask⟩ (.next ⟨false, none, fireAt - now⟩) q

/-! ### What every step of the abstract model keeps -/

structure Sound (q : Schedule τ) : Prop where
  accounts : q.posts.Perm (q.returned.map (·.1) ++ q.pending ++ q.delayed)
  numbered : q.posts.map (·.number) = List.range q.posts.length
  inOrder : (q.returned.map (·.1)).filter (·.due.isNone) ++ q.pending =
    q.posts.filter (·.due.isNone)
  delayedDue : ∀ e ∈ q.delayed, e.due.isNone = false
  onTime : ∀ r ∈ q.returned, ∀ t, r.1.due = some t → t ≤ r.2

theorem sound_empty : Sound ({} : Schedule τ) where
  accounts := List.Perm.refl _
  numbered := rfl
  inOrder := rfl
  delayedDue := by simp
  onTime := by simp

variable {q : Schedule τ}

theorem Sound.numbers_nodup (h : q.Sound) :
    ((q.returned.map (·.1) ++ q.pending ++ q.delayed).map (·.number)).Nodup := by
  rw [← (h.accounts.map _).nodup_iff, h.numbered]
  exact nodup_range

theorem Sound.nodup (h : q.Sound) : q.posts.Nodup := by
  apply List.Nodup.of_map (·.number)
  rw [h.numbered]
  exact nodup_range

theorem Sound.pending_increasing (h : q.Sound) : q.pending.Pairwise (·.number < ·.number) := by
  have hposts : q.posts.Pairwise (·.number < ·.number) := by
    rw [← pairwise_map, h.numbered]
    exact pairwise_lt_range
  have hsublist : q.pending.Sublist (q.posts.filter (·.due.isNone)) := by
    rw [← h.inOrder]
    exact sublist_append_right _ _
  exact hposts.sublist (hsublist.trans filter_sublist)

variable {e d : Entry τ}

theorem Sound.pending_isNone (h : q.Sound) (he : e ∈ q.pending) : e.due.isNone = true := by
  have hmem : e ∈ q.posts.filter (·.due.isNone) := by
    rw [← h.inOrder]
    exact mem_append_right _ he
  exact (mem_filter.mp hmem).2

theorem Sound.returned_number_ne (h : q.Sound) {r : Entry τ} (hr : r ∈ q.returned.map (·.1))
    (he : e ∈ q.pending ++ q.delayed) :
    r.number ≠ e.number := by
  have hnodup := h.numbers_nodup
  rw [append_assoc, map_append, nodup_append] at hnodup
  exact hnodup.2.2 _ (mem_map_of_mem hr) _ (mem_map_of_mem he)

theorem Sound.pending_number_ne (h : q.Sound) (he : e ∈ q.pending) (hd : d ∈ q.delayed) :
    e.number ≠ d.number := by
  have hnodup := h.numbers_nodup
  rw [map_append, nodup_append] at hnodup
  apply hnodup.2.2 _ _ _ (mem_map_of_mem hd)
  exact mem_map_of_mem (mem_append_right _ he)

theorem Sound.delayed_perm (h : q.Sound) (hd : d ∈ q.delayed) :
    q.delayed.Perm (d :: q.delayed.filter (·.number != d.number)) := by
  have hnodup := h.numbers_nodup
  rw [map_append, nodup_append] at hnodup
  exact perm_cons_filter hnodup.2.1 hd

theorem Sound.mem_number_lt (h : q.Sound) (he : e ∈ q.posts) : e.number < q.posts.length := by
  have hmem := mem_map_of_mem (f := fun e : Entry τ => e.number) he
  rw [h.numbered] at hmem
  exact mem_range.mp hmem

theorem Earliest.unique {d' : Entry τ} (h : q.Earliest d) (h' : q.Earliest d') : d = d' := by
  cases h.before d' h'.mem with
  | inl heq => exact heq.symm
  | inr hbefore =>
    cases h'.before d h.mem with
    | inl heq => exact heq
    | inr hafter => exact (hbefore.asymm hafter).elim

theorem numbered_append (h : q.Sound) (due : Option Int) (task : τ) :
    (q.posts ++ [q.entry due task]).map (·.number) =
      List.range (q.posts ++ [q.entry due task]).length := by
  rw [length_append, length_singleton, range_succ, map_append, h.numbered]
  rfl

theorem Sound.post (h : q.Sound) (task : τ) : (q.post task).Sound where
  accounts := perm_of_count h.accounts fun a hcount => by
    simp only [Schedule.post, count_append] at hcount ⊢
    omega
  numbered := numbered_append h none task
  inOrder := by
    have hnew : [q.entry none task].filter (·.due.isNone) = [q.entry none task] := rfl
    rw [Schedule.post, filter_append, hnew, ← h.inOrder, append_assoc]
  __ := h

theorem Sound.delay (h : q.Sound) (fireAt : Int) (task : τ) : (q.delay fireAt task).Sound where
  accounts := perm_of_count h.accounts fun a hcount => by
    simp only [Schedule.delay, count_append] at hcount ⊢
    omega
  numbered := numbered_append h (some fireAt) task
  inOrder := by
    have hnew : [q.entry (some fireAt) task].filter (·.due.isNone) = [] := rfl
    rw [Schedule.delay, filter_append, hnew, ← h.inOrder, append_nil]
  delayedDue := forall_mem_append.mpr ⟨h.delayedDue, forall_mem_singleton.mpr rfl⟩
  onTime := h.onTime

theorem Sound.takePending (h : q.Sound) (now : Int) {rest : List (Entry τ)}
    (hpending : q.pending = e :: rest) : (q.takePending now e rest).Sound where
  __ := h
  accounts := perm_of_count h.accounts fun a hcount => by
    simp only [Schedule.takePending, hpending, count_append, map_append,
      map_cons, map_nil, count_cons, count_nil] at hcount ⊢
    omega
  inOrder := by
    have he : e.due.isNone = true := h.pending_isNone (by rw [hpending]; exact mem_cons_self)
    have hnew : [e].filter (·.due.isNone) = [e] := filter_cons_of_pos he
    rw [Schedule.takePending, map_append, filter_append, map_cons, map_nil, hnew, append_assoc]
    have horder := h.inOrder
    rw [hpending] at horder
    exact horder
  onTime := by
    refine forall_mem_append.mpr ⟨h.onTime, forall_mem_singleton.mpr ?_⟩
    intro t hdue
    have he := h.pending_isNone (e := e) (by rw [hpending]; exact mem_cons_self)
    rw [hdue] at he
    cases he

theorem Sound.takeDelayed (h : q.Sound) {now : Int} (hd : d ∈ q.delayed)
    (hdue : d.isDue now = true) : (q.takeDelayed now d).Sound where
  accounts := perm_of_count h.accounts fun a hcount => by
    have htaken := perm_iff_count.mp (h.delayed_perm hd) a
    simp only [Schedule.takeDelayed, count_append, map_append,
      map_cons, map_nil, count_cons, count_nil] at hcount htaken ⊢
    omega
  numbered := h.numbered
  inOrder := by
    have hnew : [d].filter (·.due.isNone) = [] :=
      filter_cons_of_neg (by rw [h.delayedDue d hd]; exact Bool.false_ne_true)
    rw [Schedule.takeDelayed, map_append, filter_append, map_cons, map_nil, hnew, append_nil]
    exact h.inOrder
  delayedDue := fun e he => h.delayedDue e (mem_of_mem_filter he)
  onTime := by
    refine forall_mem_append.mpr ⟨h.onTime, forall_mem_singleton.mpr ?_⟩
    intro t ht
    rw [Entry.isDue, ht] at hdue
    exact of_decide_eq_true hdue

theorem acts_sound {c : Call τ} {answer : Answer τ} {q' : Schedule τ}
    (hacts : q.Acts c answer q') (h : q.Sound) : q'.Sound := by
  cases hacts with
  | postTask now task => exact h.post task
  | postDelayedTask now task milliseconds => exact h.delay _ task
  | pending now sleepTimeMs e rest hpending hturn => exact h.takePending now hpending
  | delayed now sleepTimeMs d hearliest hdue hturn => exact h.takeDelayed hearliest.mem hdue
  | idle | sleep => exact h

/-! ### A due task and an immediate task -/

/-- Of the due task `d`, earliest when both waited, and the immediate task `i`, the
one posted first is returned first. -/
inductive InTurn (q : Schedule τ) (d i : Entry τ) : Prop
  | waiting (hd : q.Earliest d) (hi : i ∈ q.pending)
  | pendingFirst (hd : q.Earliest d) (hi : i ∈ q.returned.map (·.1)) (hlt : i.number < d.number)
  | delayedFirst (hd : d ∈ q.returned.map (·.1)) (hi : i ∈ q.pending) (hlt : d.number < i.number)
  | both (hd : d ∈ q.returned.map (·.1)) (hi : i ∈ q.returned.map (·.1))

variable {d i : Entry τ} {now : Int}

theorem Earliest.delay (hsound : q.Sound) (h : q.Earliest d) (hdue : d.isDue now = true)
    {fireAt : Int} (hlater : now ≤ fireAt) (task : τ) : (q.delay fireAt task).Earliest d where
  mem := mem_append_left _ h.mem
  before := by
    intro e he
    cases mem_append.mp he with
    | inl hold => exact h.before e hold
    | inr hnew =>
      rw [mem_singleton.mp hnew]
      obtain ⟨t, ht, hle⟩ := Entry.isDue_iff.mp hdue
      have hposts : d ∈ q.posts := hsound.accounts.mem_iff.mpr (mem_append_right _ h.mem)
      have hnumber := hsound.mem_number_lt hposts
      refine Or.inr ⟨t, fireAt, ht, rfl, ?_⟩
      show _ ∨ _ ∧ d.number < q.posts.length
      omega

theorem mem_returned_append {r : Entry τ} {rs : List (Entry τ × Int)}
    (h : r ∈ rs.map (·.1) ∨ r = e) : r ∈ (rs ++ [(e, now)]).map (·.1) := by
  rw [map_append, mem_append, map_singleton, mem_singleton]
  exact h

theorem InTurn.takePending {rest : List (Entry τ)} (h : q.InTurn d i) (now : Int)
    (hpending : q.pending = e :: rest) (hturn : q.Earliest d → e.number < d.number) :
    (q.takePending now e rest).InTurn d i := by
  cases h with
  | waiting hd hi =>
    rw [hpending] at hi
    cases mem_cons.mp hi with
    | inl heq =>
      have hlt : i.number < d.number := heq ▸ hturn hd
      exact .pendingFirst ⟨hd.mem, hd.before⟩ (mem_returned_append (.inr heq)) hlt
    | inr hrest => exact .waiting ⟨hd.mem, hd.before⟩ hrest
  | pendingFirst hd hi hlt =>
    exact .pendingFirst ⟨hd.mem, hd.before⟩ (mem_returned_append (.inl hi)) hlt
  | delayedFirst hd hi hlt =>
    rw [hpending] at hi
    cases mem_cons.mp hi with
    | inl heq => exact .both (mem_returned_append (.inl hd)) (mem_returned_append (.inr heq))
    | inr hrest => exact .delayedFirst (mem_returned_append (.inl hd)) hrest hlt
  | both hd hi =>
    exact .both (mem_returned_append (.inl hd)) (mem_returned_append (.inl hi))

theorem InTurn.takeDelayed {d' : Entry τ} (h : q.InTurn d i) (now : Int)
    (hearliest : q.Earliest d') (hturn : ∀ e ∈ q.pending, d'.number < e.number) :
    (q.takeDelayed now d').InTurn d i := by
  cases h with
  | waiting hd hi =>
    have heq := hd.unique hearliest
    have hlt : d.number < i.number := heq ▸ hturn i hi
    exact .delayedFirst (mem_returned_append (.inr heq)) hi hlt
  | pendingFirst hd hi hlt =>
    exact .both (mem_returned_append (.inr (hd.unique hearliest))) (mem_returned_append (.inl hi))
  | delayedFirst hd hi hlt =>
    exact .delayedFirst (mem_returned_append (.inl hd)) hi hlt
  | both hd hi =>
    exact .both (mem_returned_append (.inl hd)) (mem_returned_append (.inl hi))

theorem InTurn.post (h : q.InTurn d i) (task : τ) : (q.post task).InTurn d i := by
  cases h with
  | waiting hd hi => exact .waiting ⟨hd.mem, hd.before⟩ (mem_append_left _ hi)
  | pendingFirst hd hi hlt => exact .pendingFirst ⟨hd.mem, hd.before⟩ hi hlt
  | delayedFirst hd hi hlt => exact .delayedFirst hd (mem_append_left _ hi) hlt
  | both hd hi => exact .both hd hi

theorem InTurn.delay (hsound : q.Sound) (h : q.InTurn d i) (hdue : d.isDue now = true)
    {fireAt : Int} (hlater : now ≤ fireAt) (task : τ) : (q.delay fireAt task).InTurn d i := by
  cases h with
  | waiting hd hi => exact .waiting (hd.delay hsound hdue hlater task) hi
  | pendingFirst hd hi hlt => exact .pendingFirst (hd.delay hsound hdue hlater task) hi hlt
  | delayedFirst hd hi hlt => exact .delayedFirst hd hi hlt
  | both hd hi => exact .both hd hi

theorem acts_inTurn {c : Call τ} {answer : Answer τ} {q' : Schedule τ}
    (hacts : q.Acts c answer q') (hsound : q.Sound) (h : q.InTurn d i)
    (hdue : d.isDue now = true) (hclock : now ≤ c.now) : q'.InTurn d i := by
  cases hacts with
  | postTask _ task => exact h.post task
  | postDelayedTask clock task milliseconds =>
    apply h.delay hsound hdue _ task
    exact Int.le_trans hclock (Int.le_add_of_nonneg_right (Int.natCast_nonneg milliseconds))
  | pending clock sleepTimeMs e rest hpending hturn =>
    apply h.takePending clock hpending
    intro hearliest
    exact hturn d hearliest (Entry.isDue_later hdue hclock)
  | delayed clock sleepTimeMs d' hearliest hdue' hturn =>
    -- There is one earliest entry, so as long as `d` waits it is the one returned.
    exact h.takeDelayed clock hearliest hturn
  | idle | sleep => exact h

theorem InTurn.order (h : q.InTurn d i) (hsound : q.Sound) :
    (i.number < d.number → d ∈ q.returned.map (·.1) → i ∈ q.returned.map (·.1)) ∧
      (d.number < i.number → i ∈ q.returned.map (·.1) → d ∈ q.returned.map (·.1)) := by
  cases h with
  | waiting hd hi =>
    constructor
    · intro _ hret
      exact absurd rfl (hsound.returned_number_ne hret (mem_append_right _ hd.mem))
    · intro _ hret
      exact absurd rfl (hsound.returned_number_ne hret (mem_append_left _ hi))
  | pendingFirst hd hi hlt => exact ⟨fun _ _ => hi, fun hgt => absurd hlt (Nat.lt_asymm hgt)⟩
  | delayedFirst hd hi hlt => exact ⟨fun hgt => absurd hlt (Nat.lt_asymm hgt), fun _ _ => hd⟩
  | both hd hi => exact ⟨fun _ _ => hi, fun _ _ => hd⟩

end Schedule

/-! ### The queues hold the schedule -/

/-- A delayed task has the number of its post plus one. -/
def toEntry (p : DelayedEntryTimeout × τ) : Entry τ := ⟨p.1.order - 1, some p.1.nextFireAtMs, p.2⟩

structure Represents (t : TaskQueueStdlib τ) (q : Schedule τ) : Prop where
  running : t.threadShouldQuit = false
  order : t.threadPostingOrder = q.posts.length
  pending : t.pendingQueue = q.pending.map fun e => (e.number, e.item)
  delayed : (t.delayedQueue.map toEntry).Perm q.delayed
  sorted : Sorted DelayedEntryTimeout.Lt t.delayedQueue
  numbers : ∀ p ∈ t.delayedQueue, 0 < p.1.order ∧ p.1.order ≤ t.threadPostingOrder

theorem represents_empty : Represents ({} : TaskQueueStdlib τ) {} where
  running := rfl
  order := rfl
  pending := rfl
  delayed := List.Perm.refl _
  sorted := List.Pairwise.nil
  numbers := by simp

variable {p : DelayedEntryTimeout × τ} {others : List (DelayedEntryTimeout × τ)}

theorem order_lt_iff {n : Nat} (hpos : 0 < p.1.order) (hne : n ≠ (toEntry p).number) :
    n < p.1.order ↔ n < (toEntry p).number := by
  simp only [toEntry] at hne ⊢
  omega

theorem before_of_lt {p' : DelayedEntryTimeout × τ} (hpos : 0 < p.1.order) (hlt : p.1.Lt p'.1) :
    (toEntry p).Before (toEntry p') := by
  refine ⟨p.1.nextFireAtMs, p'.1.nextFireAtMs, rfl, rfl, ?_⟩
  simp only [DelayedEntryTimeout.Lt] at hlt
  simp only [toEntry]
  omega

variable {t : TaskQueueStdlib τ} {q : Schedule τ} {tick : Int}

theorem Represents.postTask (h : Represents t q) (task : τ) :
    Represents (t.postTask task) (q.post task) where
  __ := h
  order := by
    rw [TaskQueueStdlib.postTask, Schedule.post, length_append, h.order]
    rfl
  pending := by
    rw [TaskQueueStdlib.postTask, Schedule.post, map_append, ← h.pending, h.order]
    rfl
  numbers := by
    intro p hp
    have hold := h.numbers p hp
    exact ⟨hold.1, Nat.le_succ_of_le hold.2⟩

theorem Represents.postDelayedTask (h : Represents t q) (now : Int) (task : τ)
    (milliseconds : Nat) :
    Represents (t.postDelayedTask now task milliseconds) (q.delay (now + milliseconds) task) where
  __ := h
  order := by
    rw [TaskQueueStdlib.postDelayedTask, Schedule.delay, length_append, h.order]
    rfl
  delayed := by
    have hfresh : ∀ p ∈ t.delayedQueue,
        DelayedEntryTimeout.Lt ⟨now + milliseconds, t.threadPostingOrder + 1⟩ p.1 ∨
          p.1.Lt ⟨now + milliseconds, t.threadPostingOrder + 1⟩ := by
      intro p hp
      have hold := (h.numbers p hp).2
      simp only [DelayedEntryTimeout.Lt]
      omega
    have hentry : toEntry (⟨now + milliseconds, t.threadPostingOrder + 1⟩, task) =
        q.entry (some (now + milliseconds)) task := by
      rw [h.order]
      rfl
    have hassign := (assign_perm (v := task) hfresh).map toEntry
    rw [map_cons, hentry] at hassign
    exact hassign.trans ((h.delayed.cons _).trans (perm_append_singleton _ _).symm)
  sorted := h.sorted.assign DelayedEntryTimeout.strictWeak _ _
  numbers := by
    intro p hp
    cases mem_assign hp with
    | inl hnew =>
      rw [hnew]
      exact ⟨Nat.succ_pos _, Nat.le_refl _⟩
    | inr hold =>
      have hnumber := h.numbers p hold
      exact ⟨hnumber.1, Nat.le_succ_of_le hnumber.2⟩

/-! #### The first task of each queue -/

section
variable {quit : Bool} {order : Nat} {entries : List (Nat × τ)}

theorem Represents.earliest (h : Represents ⟨quit, order, entries, p :: others⟩ q) :
    q.Earliest (toEntry p) where
  mem := h.delayed.mem_iff.mp mem_cons_self
  before := by
    intro e he
    cases mem_cons.mp (h.delayed.mem_iff.mpr he) with
    | inl heq => exact Or.inl heq
    | inr hother =>
      obtain ⟨p', hp', rfl⟩ := mem_map.mp hother
      have hpos := (h.numbers p mem_cons_self).1
      exact Or.inr (before_of_lt hpos ((pairwise_cons.mp h.sorted).1 p' hp'))

theorem Represents.takePending {e : Entry τ} {rest : List (Entry τ)} (h : Represents t q)
    (now : Int) :
    Represents { t with pendingQueue := rest.map fun e => (e.number, e.item) }
      (q.takePending now e rest) :=
  { h with pending := rfl }

theorem Represents.takeDelayed (h : Represents ⟨quit, order, entries, p :: others⟩ q)
    (hsound : q.Sound) (now : Int) :
    Represents ⟨quit, order, entries, others⟩ (q.takeDelayed now (toEntry p)) where
  __ := h
  delayed := (h.delayed.trans (hsound.delayed_perm h.earliest.mem)).cons_inv
  sorted := (pairwise_cons.mp h.sorted).2
  numbers p' hp' := h.numbers p' (mem_cons_of_mem p hp')

end

/-! #### `GetNextTask` -/

theorem nextPending_acts (h : Represents t q) (sleepTimeMs : Int)
    (hnone : ∀ d, q.Earliest d → d.isDue tick = false)
    (hidle : q.pending = [] → q.Acts ⟨tick, .getNextTask⟩ (.next ⟨false, none, sleepTimeMs⟩) q) :
    ∃ q', q.Acts ⟨tick, .getNextTask⟩ (.next (t.nextPending sleepTimeMs).1) q' ∧
      Represents (t.nextPending sleepTimeMs).2 q' := by
  rw [TaskQueueStdlib.nextPending, h.pending]
  cases hpending : q.pending with
  | nil => exact ⟨q, hidle hpending, h⟩
  | cons e rest =>
    refine ⟨_, .pending tick sleepTimeMs e rest hpending ?_, h.takePending tick⟩
    intro d hearliest hdue
    rw [hnone d hearliest] at hdue
    cases hdue

theorem delayed_turn {d e : Entry τ} {rest : List (Entry τ)} (hsound : q.Sound)
    (hpending : q.pending = e :: rest) (hlt : d.number < e.number) :
    ∀ x ∈ q.pending, d.number < x.number := by
  have hincreasing := hsound.pending_increasing
  rw [hpending, pairwise_cons] at hincreasing
  rw [hpending, forall_mem_cons]
  exact ⟨hlt, fun x hx => Nat.lt_trans hlt (hincreasing.1 x hx)⟩

theorem Represents.getNextTask_due {order : Nat} {entries : List (Nat × τ)}
    (h : Represents ⟨false, order, entries, p :: others⟩ q) (hsound : q.Sound)
    (hdue : p.1.nextFireAtMs ≤ tick) :
    ∃ q', q.Acts ⟨tick, .getNextTask⟩
        (.next (TaskQueueStdlib.getNextTask ⟨false, order, entries, p :: others⟩ tick).1) q' ∧
      Represents (TaskQueueStdlib.getNextTask ⟨false, order, entries, p :: others⟩ tick).2 q' := by
  have hearliest := h.earliest
  have hisDue : (toEntry p).isDue tick = true := decide_eq_true hdue
  obtain rfl : entries = _ := h.pending
  rw [TaskQueueStdlib.getNextTask, if_neg Bool.false_ne_true]
  simp only [if_pos hdue]
  cases hpending : q.pending with
  | nil =>
    have hturn : ∀ e ∈ q.pending, (toEntry p).number < e.number := by simp [hpending]
    rw [hpending] at h
    exact ⟨_, .delayed tick 0 (toEntry p) hearliest hisDue hturn, h.takeDelayed hsound tick⟩
  | cons e rest =>
    have hne : e.number ≠ (toEntry p).number :=
      hsound.pending_number_ne (by rw [hpending]; exact mem_cons_self) hearliest.mem
    have hiff := order_lt_iff (h.numbers p mem_cons_self).1 hne
    simp only [map_cons]
    -- Equal counters are the case of an immediate task posted right after the due one.
    split
    case isTrue hlt =>
      refine ⟨_, .pending tick 0 e rest hpending ?_, h.takePending tick⟩
      intro d hd _
      rw [hd.unique hearliest]
      exact hiff.mp hlt
    case isFalse hge =>
      have hturn : (toEntry p).number < e.number := by omega
      have htaken := h.takeDelayed hsound tick
      rw [hpending] at htaken
      exact ⟨_, .delayed tick 0 (toEntry p) hearliest hisDue
        (delayed_turn hsound hpending hturn), htaken⟩

theorem getNextTask_acts (h : Represents t q) (hsound : q.Sound) (tick : Int) :
    ∃ q', q.Acts ⟨tick, .getNextTask⟩ (.next (t.getNextTask tick).1) q' ∧
      Represents (t.getNextTask tick).2 q' := by
  obtain ⟨quit, order, entries, delayedQueue⟩ := t
  obtain rfl : quit = false := h.running
  cases delayedQueue with
  | nil =>
    have hempty : q.delayed = [] := h.delayed.nil_eq.symm
    apply nextPending_acts h 0
    · intro d hearliest
      have hmem := hearliest.mem
      rw [hempty] at hmem
      cases hmem
    · intro hpending
      exact .idle tick hpending hempty
  | cons p others =>
    by_cases hdue : p.1.nextFireAtMs ≤ tick
    · exact h.getNextTask_due hsound hdue
    · rw [TaskQueueStdlib.getNextTask]
      simp only [if_neg hdue]
      apply nextPending_acts h
      · intro d hd
        rw [hd.unique h.earliest]
        exact decide_eq_false hdue
      · intro hpending
        exact .sleep tick p.1.nextFireAtMs (toEntry p) hpending h.earliest rfl (Int.not_le.mp hdue)

/-! ### Whole runs -/

theorem step_refines (h : Represents t q) (hsound : q.Sound) (c : Call τ) :
    ∃ q', q.Acts c (step t c).1 q' ∧ Represents (step t c).2 q' := by
  cases c with
  | mk now op =>
    cases op with
    | postTask task => exact ⟨_, .postTask now task, h.postTask task⟩
    | postDelayedTask task milliseconds =>
      exact ⟨_, .postDelayedTask now task milliseconds, h.postDelayedTask now task milliseconds⟩
    | getNextTask => exact getNextTask_acts h hsound now

theorem run_refines (calls : List (Call τ)) (h : Represents t q) (hsound : q.Sound) :
    ∃ q', Traces Schedule.Acts q calls (runT step t calls).1 q' ∧
      Represents (runT step t calls).2 q' ∧ q'.Sound := by
  apply runT_traces (R := fun _ t q => Represents t q ∧ q.Sound) _ calls ⟨h, hsound⟩
  intro c _ t q h
  obtain ⟨q', hacts, hrep⟩ := step_refines h.1 h.2 c
  exact ⟨q', hacts, hrep, Schedule.acts_sound hacts h.2⟩

theorem traces_inTurn {d i : Entry τ} {now : Int} (hdue : d.isDue now = true)
    {calls : List (Call τ)} {answers : List (Answer τ)} {q q' : Schedule τ}
    (htraces : Traces Schedule.Acts q calls answers q') (hsound : q.Sound)
    (h : q.InTurn d i) (hclock : ∀ c ∈ calls, now ≤ c.now) : q'.InTurn d i := by
  have hkeeps : ∀ q c answer q', Schedule.Acts q c answer q' → now ≤ c.now →
      q.Sound ∧ q.InTurn d i → q'.Sound ∧ q'.InTurn d i := by
    intro q c answer q' hacts hc hq
    exact ⟨Schedule.acts_sound hacts hq.1, Schedule.acts_inTurn hacts hq.1 hq.2 hdue hc⟩
  exact (htraces.keeps hkeeps hclock ⟨hsound, h⟩).2

/-- Every run is one of the schedule, which picks among all tasks that wait by the
order of the posts; the queues hold what the schedule holds.  Every task was
returned once or waits, the immediate tasks in posting order and no delayed task
before its time.

Let further calls follow, and let `d` be the earliest delayed task and `i` an
immediate task that wait between the two parts, `d` being due before the next call.
If `i` was posted first, `d` is not returned without it, and if `d` was, `i` is not. -/
theorem taskQueue_schedules (calls later : List (Call τ)) :
    ∃ q q' : Schedule τ, Traces Schedule.Acts {} calls (runT step {} calls).1 q ∧
      Represents (runT step {} calls).2 q ∧
      q.posts.Nodup ∧
      q.posts.Perm (q.returned.map (·.1) ++ q.pending ++ q.delayed) ∧
      (q.returned.map (·.1)).filter (·.due.isNone) ++ q.pending = q.posts.filter (·.due.isNone) ∧
      (∀ r ∈ q.returned, ∀ t, r.1.due = some t → t ≤ r.2) ∧
      Traces Schedule.Acts q later (runT step (runT step {} calls).2 later).1 q' ∧
      ∀ d now, q.Earliest d → d.isDue now = true → (∀ c ∈ later, now ≤ c.now) →
        ∀ i ∈ q.pending,
          (i.number < d.number → d ∈ q'.returned.map (·.1) → i ∈ q'.returned.map (·.1)) ∧
          (d.number < i.number → i ∈ q'.returned.map (·.1) → d ∈ q'.returned.map (·.1)) := by
  obtain ⟨q, htraces, hrep, hsound⟩ := run_refines calls represents_empty Schedule.sound_empty
  obtain ⟨q', htraces', _, hsound'⟩ := run_refines later hrep hsound
  refine ⟨q, q', htraces, hrep, hsound.nodup, hsound.accounts, hsound.inOrder, hsound.onTime,
    htraces', ?_⟩
  intro d now hearliest hdue hclock i hi
  exact (traces_inTurn hdue htraces' hsound (.waiting hearliest hi) hclock).order hsound'

-- The delayed task and the immediate task posted right after it share the number two.
example :
    (runT step {} [⟨0, .postTask 'h'⟩, ⟨0, .postDelayedTask 'd' 1⟩, ⟨1, .postTask 'i'⟩,
      ⟨2, .getNextTask⟩, ⟨2, .getNextTask⟩, ⟨2, .getNextTask⟩, ⟨3, .postDelayedTask 'e' 5⟩,
      ⟨4, .getNextTask⟩]).1 =
      [.done, .done, .done, .next ⟨false, some 'h', 0⟩, .next ⟨false, some 'd', 0⟩,
        .next ⟨false, some 'i', 0⟩, .done, .next ⟨false, none, 4⟩] := by
  decide

end WebrtcCore.Ports.TaskQueue
