import Mathlib.Algebra.Group.Nat.Defs
import WebrtcCore.Verified.Heap
import WebrtcCore.Verified.Posting
import WebrtcCore.Verified.Simulation

/-!
# The message queue of a thread

Port of the queue of `rtc::Thread` (`Post`, `PostDelayed`, `PostAt`, `Peek`, `Get` without
waiting, `Clear`) on a thread that is not quitting.  A message waits in the slot `msgPeek_`, the
deque `messages_`, or the priority queue `delayed_messages_`.  `Clear` edits the array of the
latter in place and builds the heap anew, so the model holds the array and takes the heap
algorithms by their contract.

The abstract model is one FIFO of entries and one set of delayed entries, with the history of
what was posted and where each entry went.
-/

namespace WebrtcCore.Ports.ThreadQueue

open Verified Heap Posting Simulation List

/-! ### Messages -/

def mqidAny : UInt32 := 4294967295

def mqidDispose : UInt32 := 4294967294

/-- A message to a handler; `δ` is what the queue only carries, its data and the
place it was posted from. -/
structure Message (η δ : Type) where
  phandler : Option η
  messageId : UInt32
  pdata : δ
deriving DecidableEq, Repr

variable {η δ : Type}

/-- `Message::Match`; no handler stands for every handler. -/
def Message.isMatch [DecidableEq η] (m : Message η δ) (handler : Option η) (id : UInt32) :
    Bool :=
  (handler == none || handler == m.phandler) && (id == mqidAny || id == m.messageId)

/-- A message by which an object has itself deleted. -/
def Message.isDispose (m : Message η δ) : Bool := m.messageId == mqidDispose

structure DelayedMessage (η δ : Type) where
  delayMs : Int
  runTimeMs : Int
  messageNumber : Nat
  msg : Message η δ
deriving DecidableEq, Repr

/-- `DelayedMessage::operator<`, which puts the message that runs first on top. -/
def DelayedMessage.Lt (a b : DelayedMessage η δ) : Prop :=
  b.runTimeMs < a.runTimeMs ∨ b.runTimeMs = a.runTimeMs ∧ b.messageNumber < a.messageNumber
  deriving Decidable

theorem DelayedMessage.strictWeak : StrictWeak (@DelayedMessage.Lt η δ) where
  asymm a b := by
    simp only [DelayedMessage.Lt]
    omega
  neg_trans a b c := by
    simp only [DelayedMessage.Lt]
    omega

/-! ### The queue -/

/-- The stores of the queue.  `msgPeek` is filled while `fPeekKeep_` is set. -/
structure Thread (η δ : Type) where
  msgPeek : Option (Message η δ) := none
  messages : List (Message η δ) := []
  delayedMessages : List (DelayedMessage η δ) := []
  delayedNextNum : Nat := 0
deriving DecidableEq, Repr

section
variable (heap : Ops (@DelayedMessage.Lt η δ))

def Thread.post (t : Thread η δ) (m : Message η δ) : Thread η δ :=
  { t with messages := t.messages ++ [m] }

def Thread.doDelayPost (t : Thread η δ) (delayMs runAtMs : Int) (m : Message η δ) :
    Thread η δ :=
  { t with
    delayedMessages := heap.push t.delayedMessages ⟨delayMs, runAtMs, t.delayedNextNum, m⟩
    delayedNextNum := (t.delayedNextNum + 1) % 2 ^ 32 }

def Thread.postDelayed (t : Thread η δ) (now delayMs : Int) (m : Message η δ) :
    Thread η δ :=
  t.doDelayPost heap delayMs (now + delayMs) m

def Thread.postAt (t : Thread η δ) (now runAtMs : Int) (m : Message η δ) : Thread η δ :=
  t.doDelayPost heap (runAtMs - now) runAtMs m

/-- The loop of the first pass of `Get`: what is due goes to the end of the deque. -/
def joinDue (now : Int) : Nat → List (DelayedMessage η δ) → List (Message η δ) →
    List (DelayedMessage η δ) × List (Message η δ)
  | 0, delayed, messages => (delayed, messages)
  | _ + 1, [], messages => ([], messages)
  | fuel + 1, top :: rest, messages =>
    if now < top.runTimeMs then (top :: rest, messages)
    else joinDue now fuel (heap.pop (top :: rest)) (messages ++ [top.msg])

/-- The passes of `Get` over the deque: the messages deleted, the one found, and
the deque that is left. -/
def pull : List (Message η δ) → List (Message η δ) × Option (Message η δ) × List (Message η δ)
  | [] => ([], none, [])
  | m :: rest =>
    if m.messageId = mqidDispose then (m :: (pull rest).1, (pull rest).2)
    else ([], some m, rest)

/-- `Get` with a wait of zero: one round that finds no message ends the call.  The
message and those that were deleted on the way to it. -/
def Thread.get (t : Thread η δ) (now : Int) :
    (Option (Message η δ) × List (Message η δ)) × Thread η δ :=
  match t.msgPeek with
  | some m => ((some m, []), { t with msgPeek := none })
  | none =>
    let joined := joinDue heap now t.delayedMessages.length t.delayedMessages t.messages
    let pulled := pull joined.2
    ((pulled.2.1, pulled.1),
      { t with messages := pulled.2.2, delayedMessages := joined.1 })

def Thread.peek (t : Thread η δ) (now : Int) :
    (Option (Message η δ) × List (Message η δ)) × Thread η δ :=
  match t.msgPeek with
  | some m => ((some m, []), t)
  | none =>
    let got := t.get heap now
    match got.1.1 with
    | none => got
    | some m => (got.1, { got.2 with msgPeek := some m })

/-- `ClearInternal`: the messages removed, in the order they are found. -/
def Thread.clear [DecidableEq η] (t : Thread η δ) (handler : Option η) (id : UInt32) :
    List (Message η δ) × Thread η δ :=
  (t.msgPeek.toList.filter (·.isMatch handler id)
      ++ t.messages.filter (·.isMatch handler id)
      ++ (t.delayedMessages.filter (·.msg.isMatch handler id)).map (·.msg),
    { t with
      msgPeek := t.msgPeek.filter (! ·.isMatch handler id)
      messages := t.messages.filter (! ·.isMatch handler id)
      delayedMessages := heap.make (t.delayedMessages.filter (! ·.msg.isMatch handler id)) })

end

/-! ### Runs -/

inductive Op (η δ : Type) where
  | post (m : Message η δ)
  | postDelayed (delayMs : Int) (m : Message η δ)
  | postAt (runAtMs : Int) (m : Message η δ)
  | clear (handler : Option η) (id : UInt32)
  | peek
  | get
deriving DecidableEq, Repr

/-- A call and what the clock shows during it. -/
structure Call (η δ : Type) where
  now : Int
  op : Op η δ
deriving DecidableEq, Repr

inductive Answer (η δ : Type) where
  | done
  | got (found : Option (Message η δ)) (deleted : List (Message η δ))
  | cleared (removed : List (Message η δ))
deriving DecidableEq, Repr

def Call.isDelayed (c : Call η δ) : Bool :=
  match c.op with
  | .postDelayed _ _ => true
  | .postAt _ _ => true
  | _ => false

def step [DecidableEq η] (heap : Ops (@DelayedMessage.Lt η δ)) (t : Thread η δ)
    (c : Call η δ) : Answer η δ × Thread η δ :=
  match c.op with
  | .post m => (.done, t.post m)
  | .postDelayed delayMs m => (.done, t.postDelayed heap c.now delayMs m)
  | .postAt runAtMs m => (.done, t.postAt heap c.now runAtMs m)
  | .clear handler id =>
    (.cleared (t.clear heap handler id).1, (t.clear heap handler id).2)
  | .peek => (.got (t.peek heap c.now).1.1 (t.peek heap c.now).1.2, (t.peek heap c.now).2)
  | .get => (.got (t.get heap c.now).1.1 (t.get heap c.now).1.2, (t.get heap c.now).2)

/-! ### One FIFO and a set of delayed entries -/

/-- A message in the FIFO or the set.  Immediate and delayed posts are numbered
separately. -/
abbrev Posted (η δ : Type) := Entry (Message η δ)

/-- What waits, and where every posted entry that no longer waits has gone.  A
peeked entry is the first of `fifo`; a returned one stands with the clock of its
`Get`. -/
structure MessageQueue (η δ : Type) where
  fifo : List (Posted η δ) := []
  peeked : Bool := false
  delayed : List (Posted η δ) := []
  posts : List (Posted η δ) := []
  returned : List (Posted η δ × Int) := []
  cleared : List (Posted η δ) := []
  disposed : List (Posted η δ) := []

namespace MessageQueue

/-- The entry that a post creates. -/
def entry (q : MessageQueue η δ) (due : Option Int) (m : Message η δ) : Posted η δ :=
  ⟨q.posts.countP (·.due.isSome == due.isSome), due, m⟩

def post (q : MessageQueue η δ) (m : Message η δ) : MessageQueue η δ :=
  { q with fifo := q.fifo ++ [q.entry none m], posts := q.posts ++ [q.entry none m] }

def delay (q : MessageQueue η δ) (runTime : Int) (m : Message η δ) : MessageQueue η δ :=
  { q with
    delayed := q.delayed ++ [q.entry (some runTime) m]
    posts := q.posts ++ [q.entry (some runTime) m] }

/-- The entries that are due, in the order in which they join the FIFO. -/
structure Joins (q : MessageQueue η δ) (now : Int) (joining : List (Posted η δ)) : Prop where
  perm : joining.Perm (q.delayed.filter (·.isDue now))
  ordered : joining.Pairwise Entry.Before

/-- After the due entries have joined the FIFO and the first of it were deleted. -/
def advance (q : MessageQueue η δ) (now : Int) (skipped rest : List (Posted η δ)) :
    MessageQueue η δ :=
  { q with
    fifo := rest
    delayed := q.delayed.filter (! ·.isDue now)
    disposed := q.disposed ++ skipped }

/-- After the first entry was returned. -/
def take (q : MessageQueue η δ) (now : Int) (e : Posted η δ) (rest : List (Posted η δ)) :
    MessageQueue η δ :=
  { q with fifo := rest, peeked := false, returned := q.returned ++ [(e, now)] }

def clear [DecidableEq η] (q : MessageQueue η δ) (handler : Option η) (id : UInt32)
    (removed : List (Posted η δ)) : MessageQueue η δ :=
  { q with
    fifo := q.fifo.filter (! ·.item.isMatch handler id)
    peeked := q.peeked && q.fifo.head?.all (! ·.item.isMatch handler id)
    delayed := q.delayed.filter (! ·.item.isMatch handler id)
    cleared := q.cleared ++ removed }

/-- What a call may answer and do. -/
inductive Acts [DecidableEq η] (q : MessageQueue η δ) :
    Call η δ → Answer η δ → MessageQueue η δ → Prop
  | post (now : Int) (m : Message η δ) : Acts q ⟨now, .post m⟩ .done (q.post m)
  | postDelayed (now delayMs : Int) (m : Message η δ) :
      Acts q ⟨now, .postDelayed delayMs m⟩ .done (q.delay (now + delayMs) m)
  | postAt (now runAtMs : Int) (m : Message η δ) :
      Acts q ⟨now, .postAt runAtMs m⟩ .done (q.delay runAtMs m)
  | clear (now : Int) (handler : Option η) (id : UInt32) (removed : List (Posted η δ))
      (hperm : removed.Perm
        ((q.fifo ++ q.delayed).filter (·.item.isMatch handler id))) :
      Acts q ⟨now, .clear handler id⟩ (.cleared (removed.map (·.item)))
        (q.clear handler id removed)
  | getPeeked (now : Int) (e : Posted η δ) (rest : List (Posted η δ))
      (hpeeked : q.peeked = true) (hfifo : q.fifo = e :: rest) :
      Acts q ⟨now, .get⟩ (.got (some e.item) [])
        (q.take now e rest)
  | get (now : Int) (joining skipped : List (Posted η δ)) (e : Posted η δ)
      (rest : List (Posted η δ)) (hpeeked : q.peeked = false) (hjoins : q.Joins now joining)
      (hfifo : q.fifo ++ joining = skipped ++ e :: rest)
      (hskipped : ∀ x ∈ skipped, x.item.isDispose = true)
      (hfound : e.item.isDispose = false) :
      Acts q ⟨now, .get⟩ (.got (some e.item) (skipped.map (·.item)))
        ((q.advance now skipped (e :: rest)).take now e rest)
  | getNone (now : Int) (joining : List (Posted η δ)) (hpeeked : q.peeked = false)
      (hjoins : q.Joins now joining)
      (hskipped : ∀ x ∈ q.fifo ++ joining, x.item.isDispose = true) :
      Acts q ⟨now, .get⟩ (.got none ((q.fifo ++ joining).map (·.item)))
        (q.advance now (q.fifo ++ joining) [])
  | peekPeeked (now : Int) (e : Posted η δ) (rest : List (Posted η δ))
      (hpeeked : q.peeked = true) (hfifo : q.fifo = e :: rest) :
      Acts q ⟨now, .peek⟩ (.got (some e.item) []) q
  | peek (now : Int) (joining skipped : List (Posted η δ)) (e : Posted η δ)
      (rest : List (Posted η δ)) (hpeeked : q.peeked = false) (hjoins : q.Joins now joining)
      (hfifo : q.fifo ++ joining = skipped ++ e :: rest)
      (hskipped : ∀ x ∈ skipped, x.item.isDispose = true)
      (hfound : e.item.isDispose = false) :
      Acts q ⟨now, .peek⟩ (.got (some e.item) (skipped.map (·.item)))
        { q.advance now skipped (e :: rest) with peeked := true }
  | peekNone (now : Int) (joining : List (Posted η δ)) (hpeeked : q.peeked = false)
      (hjoins : q.Joins now joining)
      (hskipped : ∀ x ∈ q.fifo ++ joining, x.item.isDispose = true) :
      Acts q ⟨now, .peek⟩ (.got none ((q.fifo ++ joining).map (·.item)))
        (q.advance now (q.fifo ++ joining) [])

end MessageQueue

/-! ### What every step of the abstract model keeps -/

namespace MessageQueue

/-- Everything that can be said of a queue between two calls; `now` is the clock of
the last one. -/
structure Sound (q : MessageQueue η δ) (now : Int) : Prop where
  accounts : q.posts.Perm
    (q.returned.map (·.1) ++ q.cleared ++ q.disposed ++ q.fifo ++ q.delayed)
  numbered : q.posts.Pairwise fun a b => a.due.isSome = b.due.isSome → a.number < b.number
  below : ∀ e ∈ q.posts, e.number < q.posts.countP (·.due.isSome == e.due.isSome)
  sublist : q.delayed.Sublist q.posts
  ripe : ∀ e ∈ q.fifo, ∀ t, e.due = some t → t ≤ now
  onTime : ∀ r ∈ q.returned, ∀ t, r.1.due = some t → t ≤ r.2
  deleted : ∀ e ∈ q.disposed, e.item.isDispose = true
  delivered : ∀ r ∈ q.returned, r.1.item.isDispose = false
  peekedFirst : q.peeked = true →
    ∃ e, q.fifo.head? = some e ∧ e.item.isDispose = false

theorem sound_empty (now : Int) : Sound ({} : MessageQueue η δ) now where
  accounts := List.Perm.refl _
  numbered := List.Pairwise.nil
  below := by simp
  sublist := List.Sublist.refl _
  ripe := by simp
  onTime := by simp
  deleted := by simp
  delivered := by simp
  peekedFirst := by simp

variable {q : MessageQueue η δ} {last now : Int}

variable (h : q.Sound now)
include h

theorem Sound.nodup : q.posts.Nodup := by
  apply h.numbered.imp
  intro a b hab heq
  subst heq
  exact absurd (hab rfl) (Nat.lt_irrefl _)

theorem Sound.delayed_numbered :
    q.delayed.Pairwise fun a b => a.due.isSome = b.due.isSome → a.number < b.number :=
  h.numbered.sublist h.sublist

/-! #### Posting -/

theorem Sound.numbered_append (due : Option Int) (m : Message η δ) :
    (q.posts ++ [q.entry due m]).Pairwise
      fun a b => a.due.isSome = b.due.isSome → a.number < b.number := by
  rw [pairwise_append]
  refine ⟨h.numbered, pairwise_singleton _ _, ?_⟩
  intro a ha b hb hkind
  rw [mem_singleton] at hb
  subst hb
  have hlt := h.below a ha
  rw [hkind] at hlt
  exact hlt

theorem Sound.below_append (due : Option Int) (m : Message η δ) :
    ∀ e ∈ q.posts ++ [q.entry due m],
      e.number < (q.posts ++ [q.entry due m]).countP (·.due.isSome == e.due.isSome) := by
  intro e he
  rw [countP_append]
  cases mem_append.mp he with
  | inl hold => exact Nat.lt_of_lt_of_le (h.below e hold) (Nat.le_add_right _ _)
  | inr hnew =>
    rw [mem_singleton] at hnew
    subst hnew
    rw [countP_singleton, if_pos (beq_self_eq_true _)]
    exact Nat.lt_succ_self _

theorem Sound.post (m : Message η δ) : (q.post m).Sound now where
  __ := h
  accounts := perm_of_count h.accounts fun a hcount => by
    simp only [MessageQueue.post, count_append] at hcount ⊢
    omega
  numbered := h.numbered_append none m
  below := h.below_append none m
  sublist := h.sublist.trans (sublist_append_left _ _)
  ripe := by
    refine forall_mem_append.mpr ⟨h.ripe, forall_mem_singleton.mpr ?_⟩
    intro t hdue
    cases hdue
  peekedFirst := by
    intro hpeeked
    obtain ⟨e, he, hfound⟩ := h.peekedFirst hpeeked
    refine ⟨e, ?_, hfound⟩
    rw [MessageQueue.post, head?_append, he]
    rfl

theorem Sound.delay (runTime : Int) (m : Message η δ) : (q.delay runTime m).Sound now where
  __ := h
  accounts := perm_of_count h.accounts fun a hcount => by
    simp only [MessageQueue.delay, count_append] at hcount ⊢
    omega
  numbered := h.numbered_append (some runTime) m
  below := h.below_append (some runTime) m
  sublist := h.sublist.append (List.Sublist.refl _)

omit h

/-! #### Taking out -/

theorem Sound.later (h : q.Sound last) (hclock : last ≤ now) : q.Sound now :=
  { h with ripe := fun e he t hdue => Int.le_trans (h.ripe e he t hdue) hclock }

theorem Sound.take {e : Posted η δ} {rest : List (Posted η δ)} (h : q.Sound now)
    (hfifo : q.fifo = e :: rest) (hfound : e.item.isDispose = false) :
    (q.take now e rest).Sound now where
  __ := h
  accounts := perm_of_count h.accounts fun a hcount => by
    simp only [MessageQueue.take, hfifo, count_append, map_append, map_cons,
      map_nil, count_cons, count_nil] at hcount ⊢
    omega
  ripe := by
    intro x hx
    exact h.ripe x (by rw [hfifo]; exact mem_cons_of_mem e hx)
  onTime := by
    refine forall_mem_append.mpr ⟨h.onTime, forall_mem_singleton.mpr ?_⟩
    exact h.ripe e (by rw [hfifo]; exact mem_cons_self)
  delivered := forall_mem_append.mpr ⟨h.delivered, forall_mem_singleton.mpr hfound⟩
  peekedFirst := fun hpeeked => absurd hpeeked Bool.false_ne_true

theorem Joins.ripe {joining : List (Posted η δ)} (hjoins : q.Joins now joining) :
    ∀ e ∈ joining, ∀ t, e.due = some t → t ≤ now := by
  intro e he t hdue
  have hisDue := (mem_filter.mp (hjoins.perm.mem_iff.mp he)).2
  rw [Entry.isDue, hdue] at hisDue
  exact of_decide_eq_true hisDue

theorem Sound.advance {joining skipped kept : List (Posted η δ)} (peeked : Bool) (h : q.Sound now)
    (hjoins : q.Joins now joining) (hfifo : q.fifo ++ joining = skipped ++ kept)
    (hskipped : ∀ x ∈ skipped, x.item.isDispose = true)
    (hpeeked : peeked = true → ∃ e, kept.head? = some e ∧ e.item.isDispose = false) :
    Sound { q.advance now skipped kept with peeked := peeked } now where
  __ := h
  accounts := perm_of_count h.accounts fun a hcount => by
    -- What joined has left the delayed entries, and what was skipped the FIFO.
    have hsame := congrArg (count a) hfifo
    have hjoined := perm_iff_count.mp hjoins.perm a
    have hsplit := perm_iff_count.mp (filter_append_perm (·.isDue now) q.delayed) a
    simp only [MessageQueue.advance, count_append] at hcount hsame hsplit ⊢
    omega
  sublist := filter_sublist.trans h.sublist
  ripe := by
    intro e he
    have hmem : e ∈ q.fifo ++ joining := by
      rw [hfifo]
      exact mem_append_right skipped he
    cases mem_append.mp hmem with
    | inl hold => exact h.ripe e hold
    | inr hnew => exact hjoins.ripe e hnew
  deleted := forall_mem_append.mpr ⟨h.deleted, hskipped⟩
  peekedFirst := hpeeked

/-! #### Clearing -/

theorem head?_filter_of_head? {p : Posted η δ → Bool} {es : List (Posted η δ)} {e : Posted η δ}
    (he : es.head? = some e) (hp : p e = true) : (es.filter p).head? = some e := by
  cases es with
  | nil => cases he
  | cons x rest =>
    cases he
    rw [filter_cons_of_pos hp]
    rfl

variable [DecidableEq η]

theorem Sound.clear {handler : Option η} {id : UInt32} {removed : List (Posted η δ)}
    (h : q.Sound now)
    (hperm : removed.Perm ((q.fifo ++ q.delayed).filter (·.item.isMatch handler id))) :
    (q.clear handler id removed).Sound now where
  __ := h
  accounts := perm_of_count h.accounts fun a hcount => by
    have hremoved := perm_iff_count.mp hperm a
    have hfifo := perm_iff_count.mp (filter_append_perm (·.item.isMatch handler id) q.fifo) a
    have hdelayed := perm_iff_count.mp (filter_append_perm (·.item.isMatch handler id) q.delayed) a
    simp only [MessageQueue.clear, count_append, filter_append] at hcount hremoved hfifo hdelayed ⊢
    omega
  sublist := filter_sublist.trans h.sublist
  ripe := fun e he => h.ripe e (mem_of_mem_filter he)
  peekedFirst := by
    intro hpeeked
    obtain ⟨hold, hkept⟩ := Bool.and_eq_true_iff.mp hpeeked
    obtain ⟨e, he, hfound⟩ := h.peekedFirst hold
    rw [he] at hkept
    exact ⟨e, head?_filter_of_head? he hkept, hfound⟩

theorem acts_sound {c : Call η δ} {answer : Answer η δ} {q' : MessageQueue η δ}
    (hacts : q.Acts c answer q') (h : q.Sound last) (hclock : last ≤ c.now) :
    q'.Sound c.now := by
  have hnow := h.later hclock
  cases hacts with
  | post now m => exact hnow.post m
  | postDelayed now delayMs m => exact hnow.delay _ m
  | postAt now runAtMs m => exact hnow.delay _ m
  | clear now handler id removed hperm => exact hnow.clear hperm
  | getPeeked now e rest hpeeked hfifo =>
    obtain ⟨x, hx, hfound⟩ := hnow.peekedFirst hpeeked
    rw [hfifo] at hx
    cases hx
    exact hnow.take hfifo hfound
  | get now joining skipped e rest hpeeked hjoins hfifo hskipped hfound =>
    -- A `Get` is a peek followed by a `Get` of what was peeked.
    have hpeek := hnow.advance q.peeked hjoins hfifo hskipped fun _ => ⟨e, rfl, hfound⟩
    exact hpeek.take rfl hfound
  | peekPeeked now e rest hpeeked hfifo => exact hnow
  | peek now joining skipped e rest hpeeked hjoins hfifo hskipped hfound =>
    exact hnow.advance true hjoins hfifo hskipped fun _ => ⟨e, rfl, hfound⟩
  | getNone now joining hpeeked hjoins hskipped | peekNone now joining hpeeked hjoins hskipped =>
    apply hnow.advance q.peeked hjoins (append_nil _).symm hskipped
    intro htrue
    exact absurd (hpeeked.symm.trans htrue) Bool.false_ne_true

end MessageQueue

/-! ### The stores of the thread hold the abstract queue -/

open MessageQueue

def DelayedMessage.toEntry (d : DelayedMessage η δ) : Posted η δ :=
  ⟨d.messageNumber, some d.runTimeMs, d.msg⟩

structure Represents (t : Thread η δ) (q : MessageQueue η δ) : Prop where
  fifo : t.msgPeek.toList ++ t.messages = q.fifo.map (·.item)
  peeked : q.peeked = t.msgPeek.isSome
  delayed : (t.delayedMessages.map (·.toEntry)).Perm q.delayed
  isHeap : IsHeap DelayedMessage.Lt t.delayedMessages
  nextNum : t.delayedNextNum = q.posts.countP (·.due.isSome)

open DelayedMessage

theorem represents_empty : Represents ({} : Thread η δ) {} where
  fifo := rfl
  peeked := rfl
  delayed := List.Perm.refl _
  isHeap := isHeap_nil
  nextNum := rfl

variable {t : Thread η δ} {q : MessageQueue η δ} {now last : Int}

theorem Represents.post (h : Represents t q) (m : Message η δ) :
    Represents (t.post m) (q.post m) where
  __ := h
  fifo := by
    rw [MessageQueue.post, map_append, ← h.fifo, append_assoc]
    rfl
  nextNum := by
    rw [MessageQueue.post, countP_append]
    exact h.nextNum

variable (heap : Ops (@DelayedMessage.Lt η δ))

theorem Represents.doDelayPost (h : Represents t q) (delayMs runAtMs : Int) (m : Message η δ)
    (hroom : t.delayedNextNum + 1 < 2 ^ 32) :
    Represents (t.doDelayPost heap delayMs runAtMs m) (q.delay runAtMs m) where
  __ := h
  delayed := by
    have hpush := (heap.push_perm _ ⟨delayMs, runAtMs, t.delayedNextNum, m⟩ h.isHeap).map toEntry
    have hentry : toEntry ⟨delayMs, runAtMs, t.delayedNextNum, m⟩ = q.entry (some runAtMs) m := by
      simp [toEntry, entry, h.nextNum]
    rw [map_cons, hentry] at hpush
    exact hpush.trans ((h.delayed.cons _).trans (perm_append_singleton _ _).symm)
  isHeap := heap.push_isHeap _ _ h.isHeap
  nextNum := by
    rw [delay, countP_append, ← h.nextNum]
    exact Nat.mod_eq_of_lt hroom

/-! #### The first pass -/

theorem joinDue_eq (now : Int) (fuel : Nat) (c : List (DelayedMessage η δ))
    (messages : List (Message η δ)) :
    joinDue heap now fuel c messages =
      ((popWhile heap (·.toEntry.isDue now) fuel c).2,
        messages ++ (popWhile heap (·.toEntry.isDue now) fuel c).1.map (·.msg)) := by
  induction fuel generalizing c messages with
  | zero => exact Prod.ext rfl (append_nil messages).symm
  | succ fuel ih =>
    cases c with
    | nil => exact Prod.ext rfl (append_nil messages).symm
    | cons top rest =>
      rw [joinDue, popWhile]
      by_cases hlt : now < top.runTimeMs
      · have hdue : ¬ top.toEntry.isDue now = true := by
          intro h
          exact absurd hlt (Int.not_lt.mpr (of_decide_eq_true h))
        rw [if_pos hlt, if_neg hdue]
        exact Prod.ext rfl (append_nil messages).symm
      · have hdue : top.toEntry.isDue now = true := decide_eq_true (Int.not_lt.mp hlt)
        rw [if_neg hlt, if_pos hdue, ih, append_assoc]
        rfl

theorem isDue_of_not_lt {a b : DelayedMessage η δ} (h : ¬ a.Lt b)
    (hdue : b.toEntry.isDue now = true) : a.toEntry.isDue now = true := by
  have hb : b.runTimeMs ≤ now := of_decide_eq_true hdue
  apply decide_eq_true
  simp only [DelayedMessage.Lt] at h
  omega

theorem before_of_not_lt {a b : DelayedMessage η δ} (h : ¬ a.Lt b)
    (hne : a.messageNumber ≠ b.messageNumber) : a.toEntry.Before b.toEntry := by
  simp only [DelayedMessage.Lt] at h
  exact ⟨a.runTimeMs, b.runTimeMs, rfl, rfl, by
    show _ ∨ _ ∧ a.messageNumber < b.messageNumber
    omega⟩

theorem Represents.filter (h : Represents t q) (p : Posted η δ → Bool) :
    ((t.delayedMessages.filter (p ·.toEntry)).map (·.toEntry)).Perm (q.delayed.filter p) := by
  have hperm := h.delayed.filter p
  rw [filter_map] at hperm
  exact hperm

theorem Represents.numbers_ne (h : Represents t q) (hsound : q.Sound last) :
    t.delayedMessages.Pairwise fun a b => a.messageNumber ≠ b.messageNumber := by
  have hentries : q.delayed.Pairwise
      fun a b => a.due.isSome = b.due.isSome → a.number ≠ b.number := by
    apply hsound.delayed_numbered.imp
    intro a b hlt hkind
    exact Nat.ne_of_lt (hlt hkind)
  rw [← h.delayed.pairwise_iff, pairwise_map] at hentries
  · apply hentries.imp
    intro a b hne
    exact hne rfl
  · intro a b hne hkind
    exact (hne hkind.symm).symm

theorem Represents.joins (h : Represents t q) (hsound : q.Sound last)
    {r : List (DelayedMessage η δ) × List (DelayedMessage η δ)}
    (hpops : PopsWhile DelayedMessage.Lt (·.toEntry.isDue now) t.delayedMessages r) :
    q.Joins now (r.1.map (·.toEntry)) where
  perm := (hpops.popped.map _).trans (h.filter (·.isDue now))
  ordered := by
    have hne : r.1.Pairwise fun a b => a.messageNumber ≠ b.messageNumber := by
      apply (hpops.popped.pairwise_iff fun hab => Ne.symm hab).mpr
      exact (h.numbers_ne hsound).sublist filter_sublist
    rw [pairwise_map]
    apply (hpops.ordered.and hne).imp
    intro a b hab
    exact before_of_not_lt hab.1 hab.2

/-! #### The deque -/

theorem pull_cases (es : List (Posted η δ)) :
    (∃ skipped e rest, es = skipped ++ e :: rest ∧
      (∀ x ∈ skipped, x.item.isDispose = true) ∧ e.item.isDispose = false ∧
      pull (es.map (·.item)) = (skipped.map (·.item), some e.item, rest.map (·.item))) ∨
    (∀ x ∈ es, x.item.isDispose = true) ∧ pull (es.map (·.item)) = (es.map (·.item), none, []) := by
  induction es with
  | nil => exact Or.inr ⟨by simp, rfl⟩
  | cons x es ih =>
    rw [map_cons, pull]
    by_cases hx : x.item.messageId = mqidDispose
    · have hdispose : x.item.isDispose = true := beq_iff_eq.mpr hx
      rw [if_pos hx]
      cases ih with
      | inl hfound =>
        obtain ⟨skipped, e, rest, hes, hskipped, he, hpull⟩ := hfound
        refine Or.inl ⟨x :: skipped, e, rest, ?_, ?_, he, ?_⟩
        · rw [hes, cons_append]
        · exact forall_mem_cons.mpr ⟨hdispose, hskipped⟩
        · rw [hpull]
          rfl
      | inr hnone =>
        rw [hnone.2]
        exact Or.inr ⟨forall_mem_cons.mpr ⟨hdispose, hnone.1⟩, rfl⟩
    · rw [if_neg hx]
      exact Or.inl ⟨[], x, es, rfl, by simp, beq_eq_false_iff_ne.mpr hx, rfl⟩

/-! #### `Get` and `Peek` -/

theorem Represents.take {m : Message η δ} {e : Posted η δ} {rest : List (Posted η δ)}
    (h : Represents { t with msgPeek := some m } q) (now : Int) (hfifo : q.fifo = e :: rest) :
    Represents { t with msgPeek := none } (q.take now e rest) where
  __ := h
  fifo := (cons.inj (h.fifo.trans (congrArg _ hfifo))).2
  peeked := rfl

/-- A `Get` that finds nothing peeked, up to the message it finds: that message is
here still the first of the FIFO. -/
inductive Fetches (q : MessageQueue η δ) (now : Int) (t' : Thread η δ) :
    Option (Message η δ) × List (Message η δ) → Prop
  | found (joining skipped : List (Posted η δ)) (e : Posted η δ) (rest : List (Posted η δ))
      (hjoins : q.Joins now joining) (hfifo : q.fifo ++ joining = skipped ++ e :: rest)
      (hskipped : ∀ x ∈ skipped, x.item.isDispose = true)
      (hfound : e.item.isDispose = false)
      (hrep : Represents { t' with msgPeek := some e.item }
        { q.advance now skipped (e :: rest) with peeked := true }) :
      Fetches q now t' (some e.item, skipped.map (·.item))
  | none (joining : List (Posted η δ)) (hjoins : q.Joins now joining)
      (hskipped : ∀ x ∈ q.fifo ++ joining, x.item.isDispose = true)
      (hrep : Represents t' (q.advance now (q.fifo ++ joining) [])) :
      Fetches q now t' (none, (q.fifo ++ joining).map (·.item))

theorem Represents.fetches (h : Represents t q) (hsound : q.Sound last) (hpeek : t.msgPeek = none)
    (now : Int) :
    Fetches q now (t.get heap now).2 (t.get heap now).1 := by
  have hpops := popWhile_spec heap strictWeak (·.toEntry.isDue now)
    (fun _ _ => isDue_of_not_lt) _ t.delayedMessages h.isHeap (Nat.le_refl _)
  have hjoins := h.joins hsound hpops
  have hleft := (hpops.left.map toEntry).trans (h.filter (! ·.isDue now))
  rw [Thread.get, hpeek, joinDue_eq]
  -- From here on the loop is known by what it leaves only.
  generalize popWhile heap (·.toEntry.isDue now) t.delayedMessages.length t.delayedMessages = r
    at hpops hjoins hleft ⊢
  have hdeque : t.messages ++ r.1.map (·.msg) = (q.fifo ++ r.1.map (·.toEntry)).map (·.item) := by
    rw [map_append, ← h.fifo, hpeek, map_map]
    rfl
  dsimp only
  rw [hdeque]
  cases pull_cases (q.fifo ++ r.1.map (·.toEntry)) with
  | inl hcase =>
    obtain ⟨skipped, e, rest, hfifo, hskipped, hfound, hpull⟩ := hcase
    rw [hpull]
    exact Fetches.found _ skipped e rest hjoins hfifo hskipped hfound
      { fifo := rfl, peeked := rfl, delayed := hleft, isHeap := hpops.isHeap,
        nextNum := h.nextNum }
  | inr hcase =>
    rw [hcase.2]
    apply Fetches.none _ hjoins hcase.1
    exact
      { fifo := rfl, peeked := h.peeked.trans (congrArg _ hpeek), delayed := hleft,
        isHeap := hpops.isHeap, nextNum := h.nextNum }

theorem get_msgPeek (t : Thread η δ) (now : Int) : (t.get heap now).2.msgPeek = none := by
  rw [Thread.get]
  cases t.msgPeek <;> rfl

theorem Represents.clear_peeked (h : Represents t q) (p : Message η δ → Bool) :
    (q.peeked && q.fifo.head?.all (p ·.item)) = (t.msgPeek.filter p).isSome := by
  obtain ⟨msgPeek, messages, delayedMessages, delayedNextNum⟩ := t
  rw [h.peeked]
  cases msgPeek with
  | none => rfl
  | some m =>
    obtain ⟨e, rest, hfifo, rfl, _⟩ := map_eq_cons_iff.mp h.fifo.symm
    rw [hfifo]
    cases hp : p e.item <;> simp

theorem Represents.clear_fifo (h : Represents t q) (p : Message η δ → Bool) :
    (t.msgPeek.filter p).toList ++ t.messages.filter p =
      (q.fifo.filter (p ·.item)).map (·.item) := by
  have hfilter := congrArg (List.filter p) h.fifo
  rw [filter_append, filter_map] at hfilter
  rw [Option.toList_filter]
  exact hfilter

/-! #### Between two calls -/

/-- Between two calls, seen with the calls to come: the clock is not behind, and
there are numbers for all delayed messages. -/
structure Running (calls : List (Call η δ)) (t : Thread η δ) (q : MessageQueue η δ) :
    Prop where
  represents : Represents t q
  sound : ∃ last, q.Sound last ∧ ∀ c ∈ calls, last ≤ c.now
  clock : calls.Pairwise (·.now ≤ ·.now)
  room : q.posts.countP (·.due.isSome) + calls.countP (·.isDelayed) < 2 ^ 32

theorem running_start (calls : List (Call η δ)) (hclock : calls.Pairwise (·.now ≤ ·.now))
    (hposts : calls.countP (·.isDelayed) < 2 ^ 32) : Running calls {} {} where
  represents := represents_empty
  sound := by
    cases calls with
    | nil => exact ⟨0, sound_empty 0, by simp⟩
    | cons c rest =>
      refine ⟨c.now, sound_empty c.now, ?_⟩
      exact forall_mem_cons.mpr ⟨Int.le_refl _, (pairwise_cons.mp hclock).1⟩
  clock := hclock
  room := by
    show 0 + _ < _
    omega

/-! #### The calls -/

variable [DecidableEq η]

theorem Represents.get (h : Represents t q) (hsound : q.Sound last) (now : Int) :
    ∃ q', q.Acts ⟨now, .get⟩ (.got (t.get heap now).1.1 (t.get heap now).1.2) q' ∧
      Represents (t.get heap now).2 q' := by
  obtain ⟨msgPeek, messages, delayedMessages, delayedNextNum⟩ := t
  cases msgPeek with
  | some m =>
    obtain ⟨e, rest, hfifo, rfl, _⟩ := map_eq_cons_iff.mp h.fifo.symm
    exact ⟨_, .getPeeked now e rest h.peeked hfifo, h.take now hfifo⟩
  | none =>
    have hfetches := h.fetches heap hsound rfl now
    have hslot := get_msgPeek heap ⟨none, messages, delayedMessages, delayedNextNum⟩ now
    generalize Thread.get heap _ now = r at hfetches hslot ⊢
    cases r with
    | mk answer t' =>
      cases hfetches with
      | found joining skipped e rest hjoins hfifo hskipped hfound hrep =>
        have hsame : { t' with msgPeek := none } = t' := by rw [← hslot]
        have htake := hrep.take now rfl
        rw [hsame] at htake
        exact ⟨_, .get now joining skipped e rest h.peeked hjoins hfifo hskipped hfound, htake⟩
      | none joining hjoins hskipped hrep =>
        exact ⟨_, .getNone now joining h.peeked hjoins hskipped, hrep⟩

theorem Represents.peek (h : Represents t q) (hsound : q.Sound last) (now : Int) :
    ∃ q', q.Acts ⟨now, .peek⟩ (.got (t.peek heap now).1.1 (t.peek heap now).1.2) q' ∧
      Represents (t.peek heap now).2 q' := by
  obtain ⟨msgPeek, messages, delayedMessages, delayedNextNum⟩ := t
  cases msgPeek with
  | some m =>
    obtain ⟨e, rest, hfifo, rfl, _⟩ := map_eq_cons_iff.mp h.fifo.symm
    exact ⟨_, .peekPeeked now e rest h.peeked hfifo, h⟩
  | none =>
    have hfetches := h.fetches heap hsound rfl now
    rw [Thread.peek]
    generalize Thread.get heap _ now = r at hfetches ⊢
    cases r with
    | mk answer t' =>
      cases hfetches with
      | found joining skipped e rest hjoins hfifo hskipped hfound hrep =>
        exact ⟨_, .peek now joining skipped e rest h.peeked hjoins hfifo hskipped hfound, hrep⟩
      | none joining hjoins hskipped hrep =>
        exact ⟨_, .peekNone now joining h.peeked hjoins hskipped, hrep⟩

theorem Represents.clear (h : Represents t q) (now : Int) (handler : Option η) (id : UInt32) :
    ∃ q', q.Acts ⟨now, .clear handler id⟩ (.cleared (t.clear heap handler id).1) q' ∧
      Represents (t.clear heap handler id).2 q' := by
  have hfifo := congrArg (List.filter (·.isMatch handler id)) h.fifo
  rw [filter_append, filter_map] at hfifo
  have hremoved : (t.clear heap handler id).1 =
      (q.fifo.filter (·.item.isMatch handler id) ++
        (t.delayedMessages.filter (·.msg.isMatch handler id)).map (·.toEntry)).map (·.item) := by
    rw [Thread.clear, hfifo, map_append, map_map]
    rfl
  rw [hremoved]
  refine ⟨_, .clear now handler id _ ?_, ?_⟩
  · rw [filter_append]
    exact (h.filter (·.item.isMatch handler id)).append_left _
  · exact
      { fifo := h.clear_fifo (! ·.isMatch handler id)
        peeked := h.clear_peeked (! ·.isMatch handler id)
        delayed := ((heap.make_perm _).map _).trans (h.filter (! ·.item.isMatch handler id))
        isHeap := heap.make_isHeap _
        nextNum := h.nextNum }

/-! ### One call, and all of them -/

theorem step_refines (h : Represents t q) (hsound : q.Sound last) (c : Call η δ)
    (hroom : c.isDelayed = true → t.delayedNextNum + 1 < 2 ^ 32) :
    ∃ q', q.Acts c (step heap t c).1 q' ∧ Represents (step heap t c).2 q' := by
  obtain ⟨now, op⟩ := c
  cases op with
  | post m => exact ⟨_, .post now m, h.post m⟩
  | postDelayed delayMs m =>
    exact ⟨_, .postDelayed now delayMs m, h.doDelayPost heap _ _ m (hroom rfl)⟩
  | postAt runAtMs m => exact ⟨_, .postAt now runAtMs m, h.doDelayPost heap _ _ m (hroom rfl)⟩
  | clear handler id => exact h.clear heap now handler id
  | peek => exact h.peek heap hsound now
  | get => exact h.get heap hsound now

theorem acts_posts {c : Call η δ} {answer : Answer η δ} {q' : MessageQueue η δ}
    (hacts : q.Acts c answer q') :
    q'.posts.countP (·.due.isSome) = q.posts.countP (·.due.isSome) + [c].countP (·.isDelayed) := by
  cases hacts with
  | post => exact countP_append
  | postDelayed => exact countP_append
  | postAt => exact countP_append
  | _ => rfl

theorem Running.step {c : Call η δ} {rest : List (Call η δ)} (h : Running (c :: rest) t q) :
    ∃ q', q.Acts c (step heap t c).1 q' ∧ Running rest (step heap t c).2 q' := by
  obtain ⟨last, hsound, hlast⟩ := h.sound
  have hposts := h.room
  rw [← singleton_append, countP_append] at hposts
  have hroom : c.isDelayed = true → t.delayedNextNum + 1 < 2 ^ 32 := by
    intro hdelayed
    rw [countP_singleton, if_pos hdelayed] at hposts
    rw [h.represents.nextNum]
    omega
  obtain ⟨q', hacts, hrep⟩ := step_refines heap h.represents hsound c hroom
  have hsorted := pairwise_cons.mp h.clock
  have hsound' := acts_sound hacts hsound (hlast c mem_cons_self)
  refine ⟨q', hacts, hrep, ⟨c.now, hsound', hsorted.1⟩, hsorted.2, ?_⟩
  rw [acts_posts hacts]
  omega

/-- Every run is one of the abstract queue, and the stores of the thread hold what
that queue holds.  The posted entries are all different, and each was returned by
one `Get`, or removed by one `Clear`, or deleted as a disposal, or waits; none was
returned before its time, and none that asks for a disposal was returned. -/
theorem thread_delivers (heap : Ops (@DelayedMessage.Lt η δ)) (calls : List (Call η δ))
    (hclock : calls.Pairwise (·.now ≤ ·.now)) (hposts : calls.countP (·.isDelayed) < 2 ^ 32) :
    ∃ q : MessageQueue η δ, Traces MessageQueue.Acts {} calls (runT (step heap) {} calls).1 q ∧
      Represents (runT (step heap) {} calls).2 q ∧
      q.posts.Nodup ∧
      q.posts.Perm (q.returned.map (·.1) ++ q.cleared ++ q.disposed ++ q.fifo ++ q.delayed) ∧
      (∀ r ∈ q.returned, ∀ t, r.1.due = some t → t ≤ r.2) ∧
      (∀ r ∈ q.returned, r.1.item.isDispose = false) ∧
      ∀ e ∈ q.disposed, e.item.isDispose = true := by
  obtain ⟨q, htraces, hrunning⟩ := runT_traces (fun _ _ _ _ h => h.step heap) calls
    (running_start calls hclock hposts)
  obtain ⟨last, hsound, _⟩ := hrunning.sound
  exact ⟨q, htraces, hrunning.represents, hsound.nodup, hsound.accounts, hsound.onTime,
    hsound.delivered, hsound.deleted⟩

def sampleCalls : List (Call Nat Nat) :=
  [⟨0, .postDelayed 5 ⟨some 1, 7, 0⟩⟩, ⟨1, .postAt 3 ⟨some 1, 7, 1⟩⟩, ⟨2, .post ⟨some 2, 8, 2⟩⟩,
    ⟨2, .post ⟨none, mqidDispose, 3⟩⟩, ⟨2, .peek⟩, ⟨5, .get⟩, ⟨5, .get⟩,
    ⟨6, .postAt 9 ⟨some 2, 8, 4⟩⟩, ⟨6, .clear (some 2) mqidAny⟩, ⟨9, .get⟩, ⟨9, .get⟩]

theorem thread_delivers_sample :
    ∃ q : MessageQueue Nat Nat,
      Traces MessageQueue.Acts {} sampleCalls
        (runT (step (sortedOps strictWeak)) {} sampleCalls).1 q ∧
      Represents (runT (step (sortedOps strictWeak)) {} sampleCalls).2 q ∧
      q.posts.Nodup ∧
      q.posts.Perm (q.returned.map (·.1) ++ q.cleared ++ q.disposed ++ q.fifo ++ q.delayed) ∧
      (∀ r ∈ q.returned, ∀ t, r.1.due = some t → t ≤ r.2) ∧
      (∀ r ∈ q.returned, r.1.item.isDispose = false) ∧
      ∀ e ∈ q.disposed, e.item.isDispose = true :=
  thread_delivers (sortedOps strictWeak) sampleCalls (by decide) (by decide)

example :
    (runT (step (sortedOps strictWeak)) {} sampleCalls).1 =
      [.done, .done, .done, .done, .got (some ⟨some 2, 8, 2⟩) [], .got (some ⟨some 2, 8, 2⟩) [],
        .got (some ⟨some 1, 7, 1⟩) [⟨none, mqidDispose, 3⟩], .done,
        .cleared [⟨some 2, 8, 4⟩], .got (some ⟨some 1, 7, 0⟩) [], .got none []] := by
  decide +kernel

/-- A message that asks for a disposal is posted, and after one `Get` it has neither
been returned nor removed by a `Clear`, and no store of the thread holds it. -/
theorem get_deletes_dispose :
    runT (step (sortedOps strictWeak)) ({} : Thread Nat Nat)
        [⟨0, .post ⟨none, mqidDispose, 3⟩⟩, ⟨0, .get⟩] =
      ([.done, .got none [⟨none, mqidDispose, 3⟩]], {}) := by
  decide +kernel

end WebrtcCore.Ports.ThreadQueue
