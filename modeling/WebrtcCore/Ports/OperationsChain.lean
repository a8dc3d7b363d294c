import WebrtcCore.Verified.EventLog
import WebrtcCore.Verified.Simulation

/-!
# The order in which an operations chain runs its operations

Port of `ChainOperation`, `OperationWithFunctor::Run` and `OnOperationComplete` of
`OperationsChain`.

The chain is re-entrant: a functor may complete its operation before it returns and chain further
operations, and so may the chain-empty callback, so that functors run inside one another.  What
they do to the chain is a list of calls, made by whatever code is on top of the stack, or by the
sequence itself when the stack is empty.  The contract in the header is a condition on the calls:
the callback of an operation exists once its functor was invoked, and is invoked once.
-/

namespace WebrtcCore.Ports

open Verified EventLog Simulation List

structure OperationsChain where
  chainedOperations : List Nat := []
  onChainEmptyCallback : Bool := false
deriving DecidableEq, Repr

namespace OperationsChain

/-! ### The chain -/

/-- Operations are numbered in the order in which they are chained. -/
inductive Event where
  | chained (op : Nat)
  | started (op : Nat)
  | completed (op : Nat)
  | callbackSet
  | chainEmpty
deriving DecidableEq, Repr

/-- User code that the chain has called and that has not returned. -/
inductive Frame where
  | functor (op : Nat)
  | onChainEmpty
deriving DecidableEq, Repr

/-- The sequence on which the chain lives, with the log of its events. -/
structure Execution where
  chain : OperationsChain := {}
  operations : Nat := 0
  stack : List Frame := []
  log : List Event := []
deriving DecidableEq, Repr

/-- `OperationWithFunctor::Run`: the functor is invoked. -/
def Execution.run (e : Execution) (op : Nat) : Execution :=
  { e with stack := .functor op :: e.stack, log := e.log ++ [.started op] }

/-- `chained_operations_.front()->Run()`. -/
def Execution.runFront (e : Execution) : Option Execution :=
  match e.chain.chainedOperations with
  | [] => none
  | op :: _ => some (e.run op)

def Execution.push (e : Execution) : Execution :=
  { e with
    chain := { e.chain with chainedOperations := e.chain.chainedOperations ++ [e.operations] }
    operations := e.operations + 1
    log := e.log ++ [.chained e.operations] }

def Execution.chainOperation (e : Execution) : Option Execution :=
  if e.push.chain.chainedOperations.length = 1 then e.push.runFront else some e.push

def Execution.setOnChainEmptyCallback (e : Execution) : Execution :=
  { e with
    chain := { e.chain with onChainEmptyCallback := true }
    log := e.log ++ [.callbackSet] }

/-- The chain-empty callback is invoked. -/
def Execution.runOnChainEmpty (e : Execution) : Execution :=
  { e with stack := .onChainEmpty :: e.stack, log := e.log ++ [.chainEmpty] }

/-- Whose callback was invoked is not told; the front operation is removed. -/
def Execution.onOperationComplete (e : Execution) : Option Execution :=
  match e.chain.chainedOperations with
  | [] => none
  | _ :: rest =>
    let e := { e with chain := { e.chain with chainedOperations := rest } }
    if rest ≠ [] then e.runFront
    else if e.chain.onChainEmptyCallback then some e.runOnChainEmpty
    else some e

/-- `CallbackHandle::OnOperationComplete` of the handle given to `op`. -/
def Execution.callback (e : Execution) (op : Nat) : Option Execution :=
  Execution.onOperationComplete { e with log := e.log ++ [.completed op] }

/-- The calls that reach the chain, and the return of the code on top of the stack. -/
inductive Call where
  | chainOperation
  | callback (op : Nat)
  | setOnChainEmptyCallback
  | ret
deriving DecidableEq, Repr

def step (e : Execution) : Call → Option Execution
  | .chainOperation => e.chainOperation
  | .callback op => e.callback op
  | .setOnChainEmptyCallback => some e.setOnChainEmptyCallback
  | .ret =>
    match e.stack with
    | [] => none
    | _ :: rest => some { e with stack := rest }

/-! ### What is asked of the chain -/

open Execution

def chainedOps (log : List Event) : List Nat :=
  log.filterMap fun
    | .chained op => some op
    | _ => none

def startedOps (log : List Event) : List Nat :=
  log.filterMap fun
    | .started op => some op
    | _ => none

def completedOps (log : List Event) : List Nat :=
  log.filterMap fun
    | .completed op => some op
    | _ => none

/-- The contract of the operations: a callback is invoked by code that was given it, and
only once. -/
def Contract (e : Execution) : Call → Prop
  | .callback op => op ∈ startedOps e.log ∧ op ∉ completedOps e.log
  | .ret => e.stack ≠ []
  | _ => True

instance (e : Execution) (call : Call) : Decidable (Contract e call) := by
  cases call <;> unfold Contract <;> infer_instance

/-- What must surround an event in the log.  The chain is empty where every operation
chained before has completed. -/
def Fits (before : List Event) (event : Event) (after : List Event) : Prop :=
  match event with
  | .chained op =>
    chainedOps before = completedOps before → after.head? = some (.started op)
  | .started op => ∀ earlier, earlier < op → .completed earlier ∈ before
  | .completed op =>
    .callbackSet ∈ before → chainedOps before = completedOps before ++ [op] →
      after.head? = some .chainEmpty
  | .chainEmpty =>
    ∃ earlier op, before = earlier ++ [.completed op] ∧
      chainedOps before = completedOps before
  | .callbackSet => True

structure RunsInOrder (log : List Event) : Prop where
  numbered : chainedOps log = List.range (chainedOps log).length
  in_order : startedOps log <+: chainedOps log
  fits : Everywhere Fits log
  all_start : (∀ op ∈ startedOps log, op ∈ completedOps log) →
    startedOps log = chainedOps log

/-! ### The log and the queue -/

variable (xs ys : List Event)

@[simp] theorem chainedOps_append :
    chainedOps (xs ++ ys) = chainedOps xs ++ chainedOps ys := filterMap_append

@[simp] theorem startedOps_append :
    startedOps (xs ++ ys) = startedOps xs ++ startedOps ys := filterMap_append

@[simp] theorem completedOps_append :
    completedOps (xs ++ ys) = completedOps xs ++ completedOps ys := filterMap_append

theorem mem_completedOps {log : List Event} {op : Nat} :
    op ∈ completedOps log ↔ .completed op ∈ log := by
  simp only [completedOps, mem_filterMap]
  constructor
  · intro h
    obtain ⟨event, hmem, hop⟩ := h
    cases event with
    | completed i =>
      rw [← Option.some.inj hop]
      exact hmem
    | _ => cases hop
  · intro h
    exact ⟨.completed op, h, rfl⟩

theorem fits_stable : Stable Fits := by
  intro before event after more h
  cases event with
  | chained op =>
    intro hempty
    rw [head?_append, h hempty]
    rfl
  | started op => exact h
  | completed op =>
    intro hset hempty
    rw [head?_append, h hset hempty]
    rfl
  | callbackSet => trivial
  | chainEmpty => exact h

/-- The log accounts for the queue: what was chained has completed or waits in it, and
its front is what has started and not completed. -/
structure Represents (e : Execution) : Prop where
  chained : chainedOps e.log = completedOps e.log ++ e.chain.chainedOperations
  numbered : chainedOps e.log = List.range e.operations
  started : startedOps e.log = completedOps e.log ++ e.chain.chainedOperations.take 1
  callbackSet : e.chain.onChainEmptyCallback = true ↔ .callbackSet ∈ e.log
  fits : Everywhere Fits e.log

theorem represents_initial : Represents {} where
  chained := rfl
  numbered := rfl
  started := rfl
  callbackSet := by simp
  fits := everywhere_nil

theorem completed_of_lt {log : List Event} {done rest : List Nat} {op n : Nat}
    (hdone : completedOps log = done) (hrange : done ++ op :: rest = List.range n)
    (earlier : Nat) (h : earlier < op) : .completed earlier ∈ log := by
  have hop : op = done.length := by
    have hget := congrArg (·[done.length]?) hrange
    have hlt : done.length < n := by
      have := congrArg length hrange
      simp at this
      omega
    simpa [getElem?_range hlt] using hget
  rw [← mem_completedOps, hdone]
  have hget := congrArg (·[earlier]?) hrange
  have hlt : earlier < n := by
    have := congrArg length hrange
    simp at this
    omega
  simp only [getElem?_range hlt, getElem?_append_left (hop ▸ h)] at hget
  exact mem_of_getElem? hget

theorem represents_chainOperation {e : Execution} (h : Represents e) :
    ∃ e', e.chainOperation = some e' ∧ Represents e' := by
  have hrange : completedOps e.log ++ (e.chain.chainedOperations ++ [e.operations]) =
      range (e.operations + 1) := by
    rw [range_succ, ← h.numbered, h.chained, append_assoc]
  cases hqueue : e.chain.chainedOperations with
  | nil =>
    have hempty : chainedOps e.log = completedOps e.log := by rw [h.chained, hqueue, append_nil]
    refine ⟨e.push.run e.operations, ?_, ?_⟩
    · simp [chainOperation, push, runFront, hqueue]
    · rw [hqueue] at hrange
      refine ⟨?_, ?_, ?_, ?_, ?_⟩
      · simpa [run, push, hqueue, chainedOps, completedOps] using hempty
      · simp [run, push, chainedOps, range_succ, ← h.numbered]
      · have hstarted := h.started
        simpa [run, push, hqueue, startedOps, completedOps] using hstarted
      · simpa [run, push] using h.callbackSet
      · simp only [run, push, append_assoc]
        apply h.fits.append_two fits_stable
        · intro _
          rfl
        · intro earlier hearlier
          exact mem_append_left _ (completed_of_lt rfl hrange earlier hearlier)
  | cons front rest =>
    refine ⟨e.push, ?_, ?_⟩
    · simp [chainOperation, push, hqueue]
    · refine ⟨?_, ?_, ?_, ?_, ?_⟩
      · simp only [push, chainedOps_append, h.chained]
        simp [chainedOps, completedOps]
      · simp [push, chainedOps, range_succ, ← h.numbered]
      · have hstarted := h.started
        simpa [push, hqueue, startedOps, completedOps] using hstarted
      · simpa [push] using h.callbackSet
      · apply h.fits.append_one fits_stable
        intro hempty
        rw [h.chained, hqueue] at hempty
        simp at hempty

theorem front_of_contract {e : Execution} (h : Represents e) {op : Nat}
    (hstarted : op ∈ startedOps e.log) (hcompleted : op ∉ completedOps e.log) :
    ∃ rest, e.chain.chainedOperations = op :: rest := by
  rw [h.started, mem_append] at hstarted
  have hfront := hstarted.resolve_left hcompleted
  cases hqueue : e.chain.chainedOperations with
  | nil => simp [hqueue] at hfront
  | cons front rest =>
    rw [hqueue, take_succ_cons, take_zero, mem_singleton] at hfront
    exact ⟨rest, by rw [hfront]⟩

theorem Represents.complete {e e' : Execution} (h : Represents e) {op : Nat} {rest : List Nat}
    {events : List Event} (hqueue : e.chain.chainedOperations = op :: rest)
    (hchain : e'.chain = { e.chain with chainedOperations := rest })
    (hoperations : e'.operations = e.operations) (hlog : e'.log = e.log ++ events)
    (hchained : chainedOps events = []) (hstarted : startedOps events = rest.take 1)
    (hcompleted : completedOps events = [op]) (hset : .callbackSet ∉ events)
    (hfits : Everywhere Fits e'.log) : Represents e' where
  chained := by
    rw [hlog, hchain, chainedOps_append, completedOps_append, h.chained, hqueue, hchained,
      hcompleted]
    simp
  numbered := by rw [hlog, hoperations, chainedOps_append, h.numbered, hchained, append_nil]
  started := by
    rw [hlog, hchain, startedOps_append, completedOps_append, h.started, hqueue, hstarted,
      hcompleted]
    simp
  callbackSet := by
    rw [hlog, hchain, h.callbackSet]
    simp [hset]
  fits := hfits

theorem represents_callback {e : Execution} (h : Represents e) {op : Nat}
    (hstarted : op ∈ startedOps e.log) (hcompleted : op ∉ completedOps e.log) :
    ∃ e', e.callback op = some e' ∧ Represents e' := by
  obtain ⟨rest, hqueue⟩ := front_of_contract h hstarted hcompleted
  have hchained := h.chained
  rw [hqueue] at hchained
  cases rest with
  | cons next rest =>
    -- the next operation starts inside the callback
    have hrange : completedOps (e.log ++ [.completed op]) ++ next :: rest = range e.operations := by
      rw [← h.numbered, hchained]
      simp [completedOps]
    refine ⟨run
      { e with
        chain := { e.chain with chainedOperations := next :: rest }
        log := e.log ++ [.completed op] } next, ?_, ?_⟩
    · simp [callback, onOperationComplete, runFront, hqueue]
    · refine h.complete hqueue rfl rfl (append_assoc _ _ _) rfl rfl rfl (by simp) ?_
      simp only [run, append_assoc]
      apply h.fits.append_two fits_stable
      · intro _ hempty
        rw [hchained] at hempty
        simp at hempty
      · exact completed_of_lt rfl hrange
  | nil =>
    cases hset : e.chain.onChainEmptyCallback with
    | true =>
      refine ⟨runOnChainEmpty
        { e with
          chain := { e.chain with chainedOperations := [] }
          log := e.log ++ [.completed op] }, ?_, ?_⟩
      · simp [callback, onOperationComplete, hqueue, hset]
      · refine h.complete hqueue rfl rfl (append_assoc _ _ _) rfl rfl rfl (by simp) ?_
        simp only [runOnChainEmpty, append_assoc]
        apply h.fits.append_two fits_stable
        · intro _ _
          rfl
        · refine ⟨e.log, op, rfl, ?_⟩
          rw [chainedOps_append, completedOps_append, hchained]
          exact append_nil _
    | false =>
      refine ⟨{ e with
        chain := { e.chain with chainedOperations := [] }
        log := e.log ++ [.completed op] }, ?_, ?_⟩
      · simp [callback, onOperationComplete, hqueue, hset]
      · refine h.complete hqueue rfl rfl rfl rfl rfl rfl (by simp) ?_
        apply h.fits.append_one fits_stable
        intro hmem
        rw [← h.callbackSet, hset] at hmem
        cases hmem

theorem represents_setOnChainEmptyCallback {e : Execution} (h : Represents e) :
    Represents e.setOnChainEmptyCallback where
  chained := by simpa [setOnChainEmptyCallback, chainedOps, completedOps] using h.chained
  numbered := by simpa [setOnChainEmptyCallback, chainedOps] using h.numbered
  started := by simpa [setOnChainEmptyCallback, startedOps, completedOps] using h.started
  callbackSet := by simp [setOnChainEmptyCallback]
  fits := h.fits.append_one fits_stable trivial

theorem represents_step (e : Execution) (call : Call) (h : Represents e)
    (hcontract : Contract e call) : ∃ e', step e call = some e' ∧ Represents e' := by
  cases call with
  | chainOperation => exact represents_chainOperation h
  | callback op => exact represents_callback h hcontract.1 hcontract.2
  | setOnChainEmptyCallback => exact ⟨_, rfl, represents_setOnChainEmptyCallback h⟩
  | ret =>
    cases hstack : e.stack with
    | nil => exact absurd hstack hcontract
    | cons frame rest => exact ⟨{ e with stack := rest }, by simp [step, hstack], { h with }⟩

theorem runsInOrder_of_represents {e : Execution} (h : Represents e) : RunsInOrder e.log where
  numbered := by rw [h.numbered, length_range]
  in_order := by
    rw [h.started, h.chained]
    exact (prefix_append_right_inj _).mpr ⟨_, take_append_drop 1 _⟩
  fits := h.fits
  all_start := by
    intro hall
    have hnodup : (completedOps e.log ++ e.chain.chainedOperations).Nodup := by
      rw [← h.chained, h.numbered]
      exact nodup_range
    cases hqueue : e.chain.chainedOperations with
    | nil => rw [h.started, h.chained, hqueue, take_nil]
    | cons front rest =>
      rw [hqueue] at hnodup
      have hfront : front ∈ completedOps e.log := hall front (by rw [h.started, hqueue]; simp)
      exact absurd rfl ((nodup_append.mp hnodup).2.2 front hfront front (by simp))

end OperationsChain

end WebrtcCore.Ports
