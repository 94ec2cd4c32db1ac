/-
The events of `kernel/acpi/kernel_apis.c`, and the counting semaphore that
`uacpi/kernel_api.h` says an event is.

The kernel keeps a flag, and answers a wait with a status code where a
`uacpi_bool` is asked for: `UACPI_STATUS_OK` is 0, so a successful wait is
answered `false`. `event_counts_iff`: the answers are those of the semaphore
for the runs without a wait and for no other.
-/
import Tinos.AcpiHandles
import Tinos.Lib.Runs

namespace Tinos

open Bytes Runs

/-! ## The kernel's event -/

/-- `event->signaled`, a byte. -/
def eventSignaled (m : Mem) (event : UInt64) : Bool := m event.toNat != 0

def setEventSignaled (m : Mem) (event : UInt64) (signaled : Bool) : Mem :=
  store m event.toNat 1 (if signaled then 1 else 0)

def uacpiKernelCreateEvent (pool : MemoryPool) (h : Heap) : Option (UInt64 × Heap) := do
  let (event, h) ← malloc pool h 1
  if event == 0 then
    return (0, h)
  else
    return (event, { h with mem := setEventSignaled h.mem event false })

def uacpiKernelWaitForEvent (m : Mem) (handle : UInt64) (timeout : UInt16) : Bool × Mem :=
  if handle == 0 then (UacpiStatus.invalidArgument.toBool, m)
  else if eventSignaled m handle then (UacpiStatus.ok.toBool, setEventSignaled m handle false)
  else if timeout == 0 then (UacpiStatus.timeout.toBool, m)
  else (UacpiStatus.timeout.toBool, m)

def uacpiKernelSignalEvent (m : Mem) (handle : UInt64) : Mem :=
  if handle == 0 then m else setEventSignaled m handle true

def uacpiKernelResetEvent (m : Mem) (handle : UInt64) : Mem :=
  if handle == 0 then m else setEventSignaled m handle false

/-- A wait is one with a timeout of 0. -/
inductive EventCall
  | signal
  | reset
  | wait
deriving DecidableEq

/-- The answer, for a call that has one, and memory after. -/
def eventCall (handle : UInt64) (m : Mem) : EventCall → Option Bool × Mem
  | .signal => (none, uacpiKernelSignalEvent m handle)
  | .reset => (none, uacpiKernelResetEvent m handle)
  | .wait =>
    let (r, m) := uacpiKernelWaitForEvent m handle 0
    (some r, m)

/-! ## The semaphore -/

/-- The counter of `uacpi/kernel_api.h`: a wait succeeds where it is above 0,
and takes 1. -/
def semaphoreCall (counter : Nat) : EventCall → Option Bool × Nat
  | .signal => (none, counter + 1)
  | .reset => (none, 0)
  | .wait => (some (decide (0 < counter)), counter - 1)

section Event

variable {pool : MemoryPool} {h h' : Heap} {event : UInt64} {m : Mem} {counter : Nat}

theorem eventSignaled_set (signaled : Bool) : eventSignaled (setEventSignaled m event signaled) event = signaled := by
  have hbyte : setEventSignaled m event signaled event.toNat = if signaled then 1 else 0 := by
    cases signaled with
    | true => exact store_byte 1
    | false => exact store_byte 0
  rw [eventSignaled, hbyte]
  cases signaled with
  | true => rfl
  | false => rfl

/-- A created event is not signaled. -/
theorem eventSignaled_create (hcreate : uacpiKernelCreateEvent pool h = some (event, h')) (hevent : event ≠ 0) :
    eventSignaled h'.mem event = false := by
  simp only [uacpiKernelCreateEvent, Option.bind_eq_bind, Option.bind_eq_some_iff] at hcreate
  obtain ⟨⟨p, h₁⟩, -, hcreate⟩ := hcreate
  split at hcreate
  · obtain ⟨rfl, -⟩ := Prod.mk.inj (Option.some.inj hcreate)
    exact absurd rfl hevent
  · obtain ⟨rfl, rfl⟩ := Prod.mk.inj (Option.some.inj hcreate)
    exact eventSignaled_set false

/-- A wait is answered `true` where the flag is not set. -/
theorem wait_answer (hevent : event ≠ 0) :
    (eventCall event m .wait).1 = some (!eventSignaled m event) := by
  have h0 : (event == 0) = false := beq_eq_false_iff_ne.mpr hevent
  cases hs : eventSignaled m event with
  | true => simp only [eventCall, uacpiKernelWaitForEvent, h0, hs, Bool.false_eq_true, if_false, if_true]; rfl
  | false => simp only [eventCall, uacpiKernelWaitForEvent, h0, hs, Bool.false_eq_true, if_false]; rfl

/-- Up to the first wait the flag is set where the counter is above 0, and the
first wait is answered the other way round. -/
theorem outputs_iff_no_wait (hevent : event ≠ 0) {calls : List EventCall} :
    ∀ {m : Mem} {counter : Nat}, eventSignaled m event = decide (0 < counter) →
      (outputs (eventCall event) m calls = outputs semaphoreCall counter calls ↔ EventCall.wait ∉ calls) := by
  have h0 : (event == 0) = false := beq_eq_false_iff_ne.mpr hevent
  induction calls with
  | nil => exact fun _ => ⟨fun _ => List.not_mem_nil, fun _ => rfl⟩
  | cons c calls ih =>
    intro m counter hR
    rw [outputs_cons_iff, List.mem_cons, not_or]
    cases c with
    | signal =>
      have hR' : eventSignaled (eventCall event m .signal).2 event = decide (0 < (semaphoreCall counter .signal).2) := by
        simp only [eventCall, semaphoreCall, uacpiKernelSignalEvent, h0, Bool.false_eq_true, if_false, eventSignaled_set,
          Nat.succ_pos, decide_true]
      rw [ih hR']
      simp [eventCall, semaphoreCall]
    | reset =>
      have hR' : eventSignaled (eventCall event m .reset).2 event = decide (0 < (semaphoreCall counter .reset).2) := by
        simp only [eventCall, semaphoreCall, uacpiKernelResetEvent, h0, Bool.false_eq_true, if_false, eventSignaled_set,
          Nat.lt_irrefl, decide_false]
      rw [ih hR']
      simp [eventCall, semaphoreCall]
    | wait =>
      have hne : (eventCall event m .wait).1 ≠ (semaphoreCall counter .wait).1 := by
        rw [wait_answer hevent, hR]
        simp [semaphoreCall]
      exact ⟨fun h => absurd h.1 hne, fun h => absurd rfl h.1⟩

/-- **The answers of an event** are those of a counting semaphore if and only
if no call is a wait. -/
theorem event_counts_iff (hcreate : uacpiKernelCreateEvent pool h = some (event, h')) (hevent : event ≠ 0)
    (calls : List EventCall) :
    outputs (eventCall event) h'.mem calls = outputs semaphoreCall 0 calls ↔ EventCall.wait ∉ calls :=
  outputs_iff_no_wait hevent (eventSignaled_create hcreate hevent)

end Event

theorem event_counts_iff_signals : ∃ h', uacpiKernelCreateEvent poolAt4096 ⟨fun _ => 0, 0, false⟩ = some (4120, h') ∧
    (outputs (eventCall 4120) h'.mem [.signal, .reset] = outputs semaphoreCall 0 [.signal, .reset] ↔
      EventCall.wait ∉ [EventCall.signal, EventCall.reset]) := by
  have hrun : (uacpiKernelCreateEvent poolAt4096 ⟨fun _ => 0, 0, false⟩).map Prod.fst = some 4120 := by decide +kernel
  obtain ⟨⟨event, h'⟩, hcreate, rfl⟩ := Option.map_eq_some_iff.mp hrun
  exact ⟨h', hcreate, event_counts_iff hcreate (by decide) _⟩

/-- One signal and two waits: the first wait is answered `false` and the
second `true`. -/
theorem signaled_wait_answers_false : ∃ h', uacpiKernelCreateEvent poolAt4096 ⟨fun _ => 0, 0, false⟩ = some (4120, h') ∧
    outputs (eventCall 4120) h'.mem [.signal, .wait, .wait] = [none, some false, some true] ∧
    outputs semaphoreCall 0 [.signal, .wait, .wait] = [none, some true, some false] := by
  have hrun : (uacpiKernelCreateEvent poolAt4096 ⟨fun _ => 0, 0, false⟩).map
      (fun r => (r.1, outputs (eventCall 4120) r.2.mem [.signal, .wait, .wait])) =
      some (4120, [none, some false, some true]) := by decide +kernel
  obtain ⟨⟨event, h'⟩, hcreate, he⟩ := Option.map_eq_some_iff.mp hrun
  obtain ⟨rfl, hanswers⟩ := Prod.mk.inj he
  exact ⟨h', hcreate, hanswers, rfl⟩

end Tinos
