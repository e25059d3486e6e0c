import Pintos.Lib.Ring
import Pintos.Threads.Frame

/-!
# Interrupt queues

`devices/intq.c`: a circular buffer shared between kernel threads, which call `intq_getc` and
`intq_putc` with interrupts off and may sleep in them, and interrupt handlers, which call them when
they need not sleep.

The model is a layer over the kernel's threads (`Pintos.Threads.Sched`). Each thread has a place in
the code of `intq_getc` and `intq_putc` (`Pc`); the queue's lock is one of the kernel's locks, and
`lock_acquire`, `lock_release`, `thread_block` and `thread_unblock` are those of the kernel, so that
`sema_up` may yield the CPU in the middle of `lock_release` although interrupts are off. Everything
else that threads and interrupt handlers do is in the model as well, as long as it leaves the queue's
lock and the threads that are inside of `intq_getc` and `intq_putc` alone (`admits`).

A failed assertion sets `failed`, and nothing happens any more.
-/

namespace Pintos
namespace Devices

open Threads (Thread Stmt)

/-- `INTQ_BUFSIZE`. -/
def intqBufsize : ℕ := 64

/-- The number of the queue's `lock`. -/
def intqLock : ℕ := 1

/-- `struct intq`, but for its lock. -/
structure Intq where
  -- `not_full`: the thread that waits for a free cell.
  notFull : Option ℕ
  -- `not_empty`: the thread that waits for a byte.
  notEmpty : Option ℕ
  ring : Ring UInt8 intqBufsize

/-- The two conditions a thread can wait for. -/
inductive Cond
  | notFull
  | notEmpty
  deriving DecidableEq, Repr

/-- What the queue is used for. -/
inductive Op
  | getc
  | putc (byte : UInt8)
  deriving DecidableEq, Repr

/-- The field of `struct intq` that records who waits for `c`. -/
def Intq.waiter (q : Intq) : Cond → Option ℕ
  | .notFull => q.notFull
  | .notEmpty => q.notEmpty

def Intq.setWaiter (q : Intq) (c : Cond) (w : Option ℕ) : Intq :=
  match c with
  | .notFull => { q with notFull := w }
  | .notEmpty => { q with notEmpty := w }

/-- `c` holds: the queue is not full, or not empty. -/
def Intq.holds (q : Intq) : Cond → Bool
  | .notFull => !q.ring.isFull
  | .notEmpty => !q.ring.isEmpty

/-- The condition `intq_getc` and `intq_putc` wait for. -/
def Op.needs : Op → Cond
  | .getc => .notEmpty
  | .putc _ => .notFull

/-- The condition they signal. -/
def Op.signals : Op → Cond
  | .getc => .notFull
  | .putc _ => .notEmpty

/-- Where a thread is in `intq_getc` or `intq_putc`. -/
inductive Pc
  | idle
  -- In front of the test of the loop.
  | test (op : Op)
  -- In `lock_acquire`. Ghost: `slept`, whether it has slept for the lock.
  | acquiring (op : Op) (slept : Bool)
  -- In `thread_block`, called by `wait`.
  | waiting (op : Op)
  -- In `lock_release`.
  | releasing (op : Op)
  deriving DecidableEq, Repr

structure St where
  -- The kernel's threads and locks.
  k : Threads.St
  q : Intq
  pc : ℕ → Pc
  -- An assertion of `devices/intq.c`, or of a lock function called there, has failed.
  failed : Bool
  -- Ghost: the bytes that were stored.
  put : List UInt8
  -- Ghost: the bytes that were returned.
  got : List UInt8

/-- The thread `t` goes to `p`. -/
def St.goto (s : St) (t : ℕ) (p : Pc) : St := { s with pc := Function.update s.pc t p }

def St.fail (s : St) : St := { s with failed := true }

/-! ### `intq_getc` and `intq_putc` -/

/-- What follows the loop, up to the call of `signal`. -/
def transfer (s : St) : Op → St
  | .getc =>
    { s with q := { s.q with ring := s.q.ring.get }, got := s.got ++ [s.q.ring.front] }
  | .putc byte =>
    { s with q := { s.q with ring := s.q.ring.put byte }, put := s.put ++ [byte] }

/-- `thread_unblock` of the thread `w`, if there is one. -/
def wake (w : Option ℕ) (k : Threads.St) : Threads.St :=
  match w with
  | some t => Threads.threadUnblock k t
  | none => k

/-- `signal`. The kernel's part of it is run by `run`. -/
def signal (s : St) (c : Cond) (run : (Threads.St → Threads.St) → Threads.St → Threads.St) : St :=
  if s.q.holds c then
    { s with k := run (wake (s.q.waiter c)) s.k, q := s.q.setWaiter c none }
  else s.fail

/-- `wait`, called by the thread `t`. Interrupts are off, so `thread_block` follows at once. -/
def wait (s : St) (t : Thread) (op : Op) : St :=
  if !t.level && !s.q.holds op.needs then
    { s with
      k := Threads.exec (s.k.goOn [.block]) [] .block
      q := s.q.setWaiter op.needs (some s.k.cur) }.goto s.k.cur (.waiting op)
  else s.fail

/-- The thread `t` on the CPU goes on in `intq_getc` or `intq_putc`, after what it has called has
returned. -/
def advance (s : St) (t : Thread) : Option St :=
  if t.cont ≠ [] then none
  else match s.pc s.k.cur with
    | .idle => none
    | .test op =>
      if s.q.holds op.needs then some ((signal (transfer s op) op.signals id).goto s.k.cur .idle)
      -- `lock_acquire` asserts that the caller does not hold the lock
      else if s.k.holder intqLock = some s.k.cur then some s.fail
      else some ({ s with k := s.k.goOn (Threads.lockAcquire intqLock) }.goto s.k.cur
        (.acquiring op false))
    | .acquiring op _ => some (wait s t op)
    | .waiting op =>
      -- `lock_release` asserts that the caller holds the lock
      if s.k.holder intqLock = some s.k.cur then
        some ({ s with k := s.k.goOn (Threads.lockRelease intqLock) }.goto s.k.cur (.releasing op))
      else some s.fail
    | .releasing op => some (s.goto s.k.cur (.test op))

/-! ### The system -/

inductive Act
  -- What the kernel's threads and interrupt handlers do otherwise, and the statements of the kernel
  -- functions that `intq_getc` and `intq_putc` call.
  | kernel (a : Threads.Act)
  -- The thread on the CPU calls `intq_getc` or `intq_putc`.
  | start (op : Op)
  -- It goes on there.
  | advance
  -- An interrupt handler calls `intq_getc` or `intq_putc`.
  | intr (op : Op)
  deriving DecidableEq, Repr

/-- What other code does is not about the queue's lock and does not unblock a thread that waits in
the queue. -/
def admits (s : St) : Threads.Act → Bool
  | .call c =>
    s.pc s.k.cur = .idle && (Threads.code s.k.mlfqs s.k.cur c).all (·.spares intqLock) &&
      match c with
      | .threadUnblock u => decide (s.pc u = .idle)
      | _ => true
  | .intrUnblock u => s.pc u = .idle
  | _ => true

/-- Where the thread on the CPU is after the statement at the head of `cont`: it is noted whether
it sleeps in `lock_acquire`. -/
def note (s : St) (cont : List Stmt) : Pc :=
  match s.pc s.k.cur with
  | .acquiring op slept => .acquiring op (slept ||
      decide (cont.head? = some (.down (.lock intqLock)) ∧ (s.k.sema (.lock intqLock)).value = 0))
  | p => p

def stepAt (s : St) (t : Thread) : Act → Option St
  | .kernel .run =>
    (Threads.step s.k .run).map fun k => { s with k := k }.goto s.k.cur (note s t.cont)
  | .kernel a => if admits s a then (Threads.step s.k a).map fun k => { s with k := k } else none
  | .start op =>
    if s.pc s.k.cur = .idle ∧ t.cont = [] ∧ t.level = false then some (s.goto s.k.cur (.test op))
    else none
  | .advance => advance s t
  | .intr op =>
    if Threads.intrOn t ∧ s.q.holds op.needs then
      some (signal (transfer s op) op.signals Threads.intrHandler)
    else none

def step (s : St) (a : Act) : Option St :=
  if s.failed || s.k.panicked then none
  else match s.k.threads s.k.cur with
    | some t => stepAt s t a
    | none => none

/-- `intq_init`, in a kernel that has just started. -/
def initial (aging mlfqs : Bool) (value : ℕ → ℕ) : St where
  k := Threads.initial aging mlfqs value
  q :=
    { notFull := none, notEmpty := none
      ring := { buf := fun _ => 0, head := ⟨0, by decide⟩, tail := ⟨0, by decide⟩ } }
  pc _ := .idle
  failed := false
  put := []
  got := []

def sys : System St Act where
  init s := ∃ aging mlfqs value, s = initial aging mlfqs value
  step := step

end Devices
end Pintos
