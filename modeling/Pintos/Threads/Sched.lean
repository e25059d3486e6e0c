import Pintos.Lib.List
import Pintos.Systems.System
import Pintos.Threads.FixedPoint

/-!
# Threads, semaphores and the scheduler

`threads/thread.c`, `threads/synch.c` and the timer interrupt of `devices/timer.c`, in the build
without `USERPROG`, in which the timer interrupt wakes sleepers, ages ready threads and runs the
multi-level feedback queue scheduler.

A thread is named by its page. What it still has to do of the operations it has called is its
`cont`, a list of `Stmt`s; each of them is a stretch of code that runs with interrupts off and is
not interleaved (`exec`). Between two of them an external interrupt may come in, unless the thread
itself runs with interrupts off (`level`) or has just come back from `thread_block` inside
`sema_down`. An interrupt handler runs to its end, and then `thread_yield` does if
`yield_on_return` was set (`intrHandler`).

A failed assertion about the status of a thread (`thread_current`, `thread_unblock`, `schedule`)
sets `panicked`. The other assertions are promises of the callers, and are part of when a call is
enabled (`canCall`).

The pages that palloc hands out are a parameter of the call, and the lists hold each thread's
`elem` as the thread's name. The statistics counters are left out.
-/

namespace Pintos
namespace Threads

/-- The page of `initial_thread`. -/
def initialThread : ℕ := 0

/-- The page of the thread that runs `idle`. -/
def idlePage : ℕ := 1

/-- `PRI_MIN`. -/
def priMin : ℤ := 0

/-- `PRI_DEFAULT`. -/
def priDefault : ℤ := 31

/-- `PRI_MAX`. -/
def priMax : ℤ := 63

/-- `TIME_SLICE`. -/
def timeSlice : ℕ := 4

/-- `TIMER_FREQ`. -/
def timerFreq : ℤ := 100

/-- `enum thread_status`. -/
inductive Status
  | running
  | ready
  | blocked
  | dying
  deriving DecidableEq, Repr

/-- A semaphore: one of its own, the one inside a lock, or the one `cond_wait` keeps on the stack of
the waiting thread. -/
inductive Sema
  | plain (n : ℕ)
  | lock (l : ℕ)
  | waiter (t : ℕ)
  deriving DecidableEq, Repr

/-- `idle_started` of `thread_start`. -/
def idleStarted : Sema := .plain 0

/-- `tid_lock`. -/
def tidLock : ℕ := 0

/-- A stretch of code between two points at which an interrupt may come in. -/
inductive Stmt
  -- `kernel_thread`, up to the call of the thread's function.
  | kernelThread
  -- `idle`: `idle_thread = thread_current ()`.
  | setIdle
  -- One turn of the loop of `idle`.
  | idleLoop
  -- `thread_create`: the part of `allocate_tid` under `tid_lock`.
  | allocTid (child : ℕ)
  -- `thread_create`: `nice` and `recent_cpu` of the new thread, and its priority.
  | inherit (child : ℕ)
  -- `thread_unblock`.
  | unblock (t : ℕ)
  -- `thread_check_preempt` up to the call of `thread_yield`.
  | checkPreempt
  -- `thread_yield`.
  | yield
  -- `thread_block`, called with interrupts off.
  | block
  -- The return from such a `thread_block`.
  | unblocked
  -- `thread_exit`.
  | exit
  -- `timer_sleep`: `start = timer_ticks ()`.
  | readTicks (n : ℤ)
  -- `timer_sleep`: the test of `timer_elapsed (start) < ticks`.
  | sleepTest (start n : ℤ)
  -- `thread_sleep`.
  | sleep (wakeup : ℤ)
  -- `sema_down`.
  | down (x : Sema)
  -- `sema_down` after a `thread_block` of its loop, interrupts still off.
  | downAgain (x : Sema)
  -- `sema_try_down`.
  | tryDown (x : Sema)
  -- `sema_up` before its `thread_check_preempt`.
  | up (x : Sema)
  -- `lock->holder = thread_current ()`.
  | setHolder (l : ℕ)
  -- `lock->holder = NULL`.
  | clearHolder (l : ℕ)
  -- `sema_try_down` of `lock_try_acquire`.
  | tryAcquire (l : ℕ)
  -- `cond_wait`: `sema_init` of the waiter and `list_push_back`.
  | condPush (c : ℕ)
  -- `cond_signal`.
  | condSignal (c : ℕ)
  -- `cond_broadcast`.
  | condBroadcast (c : ℕ)
  -- The assignment of `thread_set_priority`.
  | setPriority (p : ℤ)
  -- `thread_set_nice` before its `thread_check_preempt`.
  | setNice (n : ℤ)
  deriving DecidableEq, Repr

/-- `struct thread`. -/
structure Thread where
  tid : ℤ
  status : Status
  priority : ℤ
  nice : ℤ
  -- `recent_cpu`.
  recentCpu : ℤ
  -- `wakeup_tick`.
  wakeupTick : ℤ
  -- Interrupts are on in the thread's own code.
  level : Bool
  -- What is left of the operations it has called.
  cont : List Stmt
  -- Ghost: when its `elem` was last put into `ready_list`.
  stamp : ℕ
  -- Ghost: its priority has changed since.
  moved : Bool
  deriving DecidableEq, Repr

/-- `struct semaphore`. -/
structure Semaphore where
  value : ℕ
  waiters : List ℕ

structure St where
  -- The thread in each page.
  threads : ℕ → Option Thread
  -- `ready_list`.
  readyList : List ℕ
  -- `Sleep_list`.
  sleepList : List ℕ
  -- `all_list`.
  allList : List ℕ
  sema : Sema → Semaphore
  -- `holder` of each lock.
  holder : ℕ → Option ℕ
  -- `waiters` of each condition, each named by the thread whose stack holds it.
  condWaiters : ℕ → List ℕ
  -- `idle_thread`.
  idleThread : Option ℕ
  -- The thread on the CPU.
  cur : ℕ
  -- `next_tid`.
  nextTid : ℤ
  -- `ticks` of `devices/timer.c`.
  ticks : ℤ
  -- `thread_ticks`.
  threadTicks : ℕ
  -- `load_avg`.
  loadAvg : ℤ
  -- `thread_prior_aging`.
  aging : Bool
  -- `thread_mlfqs`.
  mlfqs : Bool
  -- `yield_on_return` of `threads/interrupt.c`.
  yieldOnReturn : Bool
  -- An assertion about the status of a thread has failed.
  panicked : Bool
  -- Ghost: counts the insertions into `ready_list`.
  clock : ℕ
  -- Ghost: counts the calls of `next_thread_to_run`.
  dispatches : ℕ

/-! ### Records -/

/-- Change the record of `t`. -/
def St.upd (s : St) (t : ℕ) (f : Thread → Thread) : St :=
  { s with threads := Function.update s.threads t ((s.threads t).map f) }

/-- Free the page of `t`. -/
def St.free (s : St) (t : ℕ) : St := { s with threads := Function.update s.threads t none }

def St.panic (s : St) : St := { s with panicked := true }

/-- The status of the thread in page `t`. -/
def St.status (s : St) (t : ℕ) : Option Status := (s.threads t).map Thread.status

/-- What the thread in page `t` still has to do. -/
def St.conts (s : St) (t : ℕ) : Option (List Stmt) := (s.threads t).map Thread.cont

/-- The priority of `t`. -/
def St.prio (s : St) (t : ℕ) : ℤ :=
  match s.threads t with
  | some r => r.priority
  | none => 0

/-- The `wakeup_tick` of `t`. -/
def St.wakeup (s : St) (t : ℕ) : ℤ :=
  match s.threads t with
  | some r => r.wakeupTick
  | none => 0

/-- `thread_priority_greater`. -/
def priorityGreater (s : St) (a b : ℕ) : Bool := s.prio a > s.prio b

/-- `wakeup_tick_less`. -/
def wakeupTickLess (s : St) (a b : ℕ) : Bool := s.wakeup a < s.wakeup b

/-- The acting thread goes on with `cont`. -/
def St.goOn (s : St) (cont : List Stmt) : St := s.upd s.cur fun t => { t with cont := cont }

/-- Write the semaphore `x`. -/
def St.setSema (s : St) (x : Sema) (v : Semaphore) : St :=
  { s with sema := Function.update s.sema x v }

/-- Set the status of `t`. -/
def St.setStatus (s : St) (t : ℕ) (status : Status) : St :=
  s.upd t fun r => { r with status := status }

/-! ### The scheduler -/

/-- Put `t` into `ready_list` and make it `THREAD_READY`. -/
def insertReady (s : St) (t : ℕ) : St :=
  { s with
    readyList := listInsertOrdered (priorityGreater s) t s.readyList
    clock := s.clock + 1 }.upd t fun r =>
      { r with status := .ready, stamp := s.clock, moved := false }

/-- `thread_unblock`. -/
def threadUnblock (s : St) (t : ℕ) : St :=
  if s.status t = some .blocked then insertReady s t else s.panic

/-- `next_thread_to_run`, with what it leaves of `ready_list`. -/
def nextThreadToRun (s : St) : Option ℕ × List ℕ :=
  match s.readyList with
  | [] => (s.idleThread, [])
  | t :: l => (some t, l)

/-- The switch to the thread `n`, which `next_thread_to_run` has taken off `ready_list`, and the
part of `thread_schedule_tail` that marks it as running. -/
def dispatch (s : St) (n : ℕ) (l : List ℕ) : St :=
  { s with
    readyList := l
    cur := n
    threadTicks := 0
    dispatches := s.dispatches + 1 }.setStatus n .running

/-- `schedule`, with `thread_schedule_tail` on the stack of the next thread. -/
def schedule (s : St) : St :=
  match s.threads s.cur, (nextThreadToRun s).1 with
  | some prev, some next =>
    if prev.status = .running ∨ s.threads next = none then s.panic
    else
      let s' := dispatch s next (nextThreadToRun s).2
      -- a thread that has ended gives back its page
      if s.cur ≠ next ∧ prev.status = .dying ∧ s.cur ≠ initialThread then s'.free s.cur else s'
  | _, _ => s.panic

/-- `thread_block`. -/
def threadBlock (s : St) : St := schedule (s.setStatus s.cur .blocked)

/-- `thread_yield`. -/
def threadYield (s : St) : St :=
  schedule (if s.idleThread = some s.cur then s.setStatus s.cur .ready else insertReady s s.cur)

/-- `thread_exit`. -/
def threadExit (s : St) : St :=
  schedule ({ s with allList := s.allList.erase s.cur }.setStatus s.cur .dying)

/-- The test of `thread_check_preempt`. -/
def needYield (s : St) : Bool :=
  match s.readyList with
  | [] => false
  | t :: _ => s.prio t > s.prio s.cur

/-! ### Priorities -/

/-- Give `t` the priority `p`. -/
def St.setPrio (s : St) (t : ℕ) (p : ℤ) : St :=
  s.upd t fun r => { r with priority := p, moved := r.moved || decide (r.priority ≠ p) }

/-- The priority `thread_calc_priority` computes. -/
def calcPriority (recentCpu nice : ℤ) : ℤ :=
  let priority := fpToIntZero (fpSubInt (fpSub (fpFromInt priMax) (fpDivInt recentCpu 4))
    (wrap32 (nice * 2)))
  if priority < priMin then priMin else if priority > priMax then priMax else priority

/-- `thread_calc_priority`. -/
def threadCalcPriority (s : St) (t : ℕ) : St :=
  match s.threads t with
  | some r => s.setPrio t (calcPriority r.recentCpu r.nice)
  | none => s

/-- `thread_foreach`. -/
def threadForeach (f : St → ℕ → St) (s : St) : St := s.allList.foldl f s

/-- `thread_update_recent_cpu`. -/
def threadUpdateRecentCpu (s : St) (t : ℕ) : St :=
  let coef := fpDiv (fpMulInt s.loadAvg 2) (fpAddInt (fpMulInt s.loadAvg 2) 1)
  s.upd t fun r => { r with recentCpu := fpAddInt (fpMul coef r.recentCpu) r.nice }

/-- `thread_update_priority`. -/
def threadUpdatePriority (s : St) (t : ℕ) : St :=
  if s.idleThread = some t then s else threadCalcPriority s t

/-! ### The timer interrupt -/

/-- `thread_check_preempt` in an interrupt handler. -/
def checkPreemptIntr (s : St) : St := if needYield s then { s with yieldOnReturn := true } else s

/-- The loop of `thread_wake_up` over the rest of `Sleep_list`. -/
def wakeUpLoop : List ℕ → St → St
  | [], s => s
  | t :: l, s =>
    if s.wakeup t > s.ticks then s
    else wakeUpLoop l (threadUnblock { s with sleepList := l } t)

/-- `thread_wake_up`. -/
def threadWakeUp (s : St) : St := checkPreemptIntr (wakeUpLoop s.sleepList s)

/-- The loop body of `thread_aging`. -/
def ageThread (s : St) (t : ℕ) : St := if s.prio t < priMax then s.setPrio t (s.prio t + 1) else s

/-- `thread_aging`. -/
def threadAging (s : St) : St := checkPreemptIntr (s.readyList.foldl ageThread s)

/-- `thread_mlfqs_tick`: the second's update of `load_avg` and of every `recent_cpu`. -/
def mlfqsSecond (s : St) : St :=
  let readyThreads := (s.readyList.length : ℤ) + if s.idleThread = some s.cur then 0 else 1
  let loadAvg := fpAdd (fpMul (fpDiv (fpFromInt 59) (fpFromInt 60)) s.loadAvg)
    (fpMulInt (fpDiv (fpFromInt 1) (fpFromInt 60)) readyThreads)
  threadForeach threadUpdateRecentCpu { s with loadAvg := loadAvg }

/-- `thread_mlfqs_tick`: the update of the priorities and the sort of `ready_list`. -/
def mlfqsSort (s : St) : St :=
  let s := threadForeach threadUpdatePriority s
  { s with readyList := listSort (priorityGreater s) s.readyList }

/-- `thread_mlfqs_tick`. -/
def threadMlfqsTick (s : St) : St :=
  let s := if s.idleThread = some s.cur then s
    else s.upd s.cur fun r => { r with recentCpu := fpAddInt r.recentCpu 1 }
  let s := if s.ticks % timerFreq = 0 then mlfqsSecond s else s
  if s.ticks % timeSlice = 0 then checkPreemptIntr (mlfqsSort s) else s

/-- `thread_tick`. -/
def threadTick (s : St) : St :=
  let s := { s with threadTicks := s.threadTicks + 1 }
  let s := if timeSlice ≤ s.threadTicks then { s with yieldOnReturn := true } else s
  let s := threadWakeUp s
  let s := if s.aging then threadAging s else s
  if s.mlfqs then threadMlfqsTick s else s

/-- `timer_interrupt`. -/
def timerInterrupt (s : St) : St := threadTick { s with ticks := s.ticks + 1 }

/-- The body of `sema_up`. -/
def semaUp (s : St) (x : Sema) : St :=
  let s' := match (s.sema x).waiters with
    | [] => s
    | t :: l => threadUnblock (s.setSema x { s.sema x with waiters := l }) t
  s'.setSema x { s'.sema x with value := (s'.sema x).value + 1 }

/-- `intr_handler` for an external interrupt. -/
def intrHandler (h : St → St) (s : St) : St :=
  let s := h { s with yieldOnReturn := false }
  if s.yieldOnReturn then threadYield s else s

/-! ### Statements -/

/-- The loop of `sema_down`, up to where it blocks or has its unit. -/
def semaDown (s : St) (x : Sema) (rest : List Stmt) : St :=
  if (s.sema x).value = 0 then
    threadBlock ((s.setSema x { s.sema x with
      waiters := listInsertOrdered (priorityGreater s) s.cur (s.sema x).waiters }).goOn
        (.downAgain x :: rest))
  else (s.setSema x { s.sema x with value := (s.sema x).value - 1 }).goOn rest

/-- One statement of the thread on the CPU, with `rest` after it. -/
def exec (s : St) (rest : List Stmt) : Stmt → St
  | .kernelThread => (s.upd s.cur fun t => { t with level := true }).goOn rest
  | .setIdle => { s with idleThread := some s.cur }.goOn rest
  | .idleLoop => threadBlock (s.goOn (.idleLoop :: rest))
  | .allocTid child =>
    ({ s with nextTid := s.nextTid + 1 }.upd child fun t => { t with tid := s.nextTid }).goOn rest
  | .inherit child =>
    let s' := match s.threads s.cur with
      | some t => s.upd child fun c => { c with nice := t.nice, recentCpu := t.recentCpu }
      | none => s
    (if s.mlfqs then threadCalcPriority s' child else s').goOn rest
  | .unblock t => threadUnblock (s.goOn rest) t
  | .checkPreempt => s.goOn (if needYield s then .yield :: rest else rest)
  | .yield => threadYield (s.goOn rest)
  | .block => threadBlock (s.goOn (.unblocked :: rest))
  | .unblocked => s.goOn rest
  | .exit => threadExit (s.goOn rest)
  | .readTicks n => s.goOn (.sleepTest s.ticks n :: rest)
  | .sleepTest start n => s.goOn (if s.ticks - start < n then .sleep (start + n) :: rest else rest)
  | .sleep wakeup =>
    let s' := (s.upd s.cur fun t => { t with wakeupTick := wakeup }).goOn rest
    threadBlock { s' with
      sleepList := listInsertOrdered (wakeupTickLess s') s.cur s.sleepList }
  | .down x => semaDown s x rest
  | .downAgain x => semaDown s x rest
  | .tryDown x => (s.setSema x { s.sema x with value := (s.sema x).value - 1 }).goOn rest
  | .up x => semaUp (s.goOn rest) x
  | .setHolder l => { s with holder := Function.update s.holder l (some s.cur) }.goOn rest
  | .clearHolder l => { s with holder := Function.update s.holder l none }.goOn rest
  | .tryAcquire l =>
    if (s.sema (.lock l)).value = 0 then s.goOn rest
    else (s.setSema (.lock l) { s.sema (.lock l) with value := (s.sema (.lock l)).value - 1 }).goOn
      (.setHolder l :: rest)
  | .condPush c =>
    ({ s with condWaiters := Function.update s.condWaiters c (s.condWaiters c ++ [s.cur]) }.setSema
      (.waiter s.cur) { value := 0, waiters := [] }).goOn rest
  | .condSignal c =>
    match s.condWaiters c with
    | [] => s.goOn rest
    | w :: l => { s with condWaiters := Function.update s.condWaiters c l }.goOn
        (.up (.waiter w) :: .checkPreempt :: rest)
  | .condBroadcast c =>
    match s.condWaiters c with
    | [] => s.goOn rest
    | w :: l => { s with condWaiters := Function.update s.condWaiters c l }.goOn
        (.up (.waiter w) :: .checkPreempt :: .condBroadcast c :: rest)
  | .setPriority p => (s.setPrio s.cur p).goOn rest
  | .setNice n =>
    let s' := s.upd s.cur fun t => { t with nice := n }
    (if s.mlfqs then threadCalcPriority s' s.cur else s').goOn rest

/-! ### Calls -/

/-- The operations a thread calls. -/
inductive Call
  | threadCreate (child : ℕ) (priority : ℤ)
  | threadUnblock (t : ℕ)
  | threadBlock
  | threadYield
  | threadExit
  | timerSleep (n : ℤ)
  | semaDown (n : ℕ)
  | semaTryDown (n : ℕ)
  | semaUp (n : ℕ)
  | lockAcquire (l : ℕ)
  | lockTryAcquire (l : ℕ)
  | lockRelease (l : ℕ)
  | condWait (c l : ℕ)
  | condSignal (c l : ℕ)
  | condBroadcast (c l : ℕ)
  | setPriority (p : ℤ)
  | setNice (n : ℤ)
  | intrDisable
  | intrEnable
  deriving DecidableEq, Repr

/-- `lock_acquire`. -/
def lockAcquire (l : ℕ) : List Stmt := [.down (.lock l), .setHolder l]

/-- `lock_release`. -/
def lockRelease (l : ℕ) : List Stmt := [.clearHolder l, .up (.lock l), .checkPreempt]

/-- The statements of an operation, called by the thread `t`. -/
def code (mlfqs : Bool) (t : ℕ) : Call → List Stmt
  | .threadCreate child _ =>
    lockAcquire tidLock ++ .allocTid child :: lockRelease tidLock ++
      [.inherit child, .unblock child, .checkPreempt]
  | .threadUnblock _ => []
  | .threadBlock => [.block]
  | .threadYield => [.yield]
  | .threadExit => [.exit]
  | .timerSleep n => [.readTicks n]
  | .semaDown n => [.down (.plain n)]
  | .semaTryDown n => [.tryDown (.plain n)]
  | .semaUp n => [.up (.plain n), .checkPreempt]
  | .lockAcquire l => lockAcquire l
  | .lockTryAcquire l => [.tryAcquire l]
  | .lockRelease l => lockRelease l
  | .condWait c l => .condPush c :: lockRelease l ++ .down (.waiter t) :: lockAcquire l
  | .condSignal c _ => [.condSignal c]
  | .condBroadcast c _ => [.condBroadcast c]
  | .setPriority p => [.setPriority p, .checkPreempt]
  | .setNice n => .setNice n :: if mlfqs then [.checkPreempt] else []
  | .intrDisable => []
  | .intrEnable => []

/-- `t` is where its own call of `thread_block` has left it. -/
def parked (s : St) (t : ℕ) : Bool :=
  match s.threads t with
  | some r => r.status = .blocked && r.cont.head? = some .unblocked
  | none => false

/-- What the callers of an operation see to. A thread is unblocked by hand only if it has called
`thread_block` itself and is still blocked there. -/
def canCall (s : St) (t : Thread) : Call → Bool
  | .threadCreate child priority =>
    (s.threads child).isNone && priMin ≤ priority && priority ≤ priMax
  | .threadUnblock u => parked s u
  | .threadBlock => !t.level
  | .timerSleep _ => t.level
  | .lockAcquire l => s.holder l ≠ some s.cur
  | .lockTryAcquire l => s.holder l ≠ some s.cur
  | .lockRelease l => s.holder l = some s.cur
  | .condWait _ l => s.holder l = some s.cur
  | .condSignal _ l => s.holder l = some s.cur
  | .condBroadcast _ l => s.holder l = some s.cur
  | _ => true

/-- `init_thread` for the page that `thread_create` got. -/
def initThread (s : St) (child : ℕ) (priority : ℤ) : St :=
  { s with
    threads := Function.update s.threads child (some {
      tid := 0, status := .blocked, priority := priority, nice := 0, recentCpu := 0,
      wakeupTick := 0, level := false, cont := [.kernelThread], stamp := 0, moved := false })
    allList := s.allList ++ [child] }

/-- What a call does before the first point at which an interrupt may come in. -/
def enter (s : St) : Call → St
  | .threadCreate child priority => initThread s child priority
  | .threadUnblock u => threadUnblock s u
  | .intrDisable => s.upd s.cur fun t => { t with level := false }
  | .intrEnable => s.upd s.cur fun t => { t with level := true }
  | _ => s

/-! ### The system -/

inductive Act
  -- The thread on the CPU calls an operation.
  | call (c : Call)
  -- It goes on with the operation it has called.
  | run
  -- The timer interrupt.
  | tick
  -- An interrupt handler calls `sema_up`.
  | intrSemaUp (n : ℕ)
  -- An interrupt handler calls `thread_unblock`.
  | intrUnblock (t : ℕ)
  deriving DecidableEq, Repr

/-- Interrupts are on. -/
def intrOn (t : Thread) : Bool :=
  t.level && match t.cont with
    | .downAgain _ :: _ => false
    | _ => true

/-- One step of the thread `t` on the CPU, or of an interrupt. -/
def stepAt (s : St) (t : Thread) : Act → Option St
  | .call c => if t.cont = [] ∧ canCall s t c then some ((enter s c).goOn (code s.mlfqs s.cur c))
      else none
  | .run =>
    match t.cont with
    | [] => none
    | x :: rest => some (exec s rest x)
  | .tick => if intrOn t then some (intrHandler timerInterrupt s) else none
  | .intrSemaUp n =>
    if intrOn t then some (intrHandler (fun s => checkPreemptIntr (semaUp s (.plain n))) s) else none
  | .intrUnblock u =>
    if intrOn t ∧ parked s u then some (intrHandler (fun s => threadUnblock s u) s) else none

/-- Every step starts from `thread_current`, which asserts that the thread is running. -/
def step (s : St) (a : Act) : Option St :=
  if s.panicked then none
  else match s.threads s.cur with
    | none => some s.panic
    | some t => if t.status = .running then stepAt s t a else some s.panic

/-- What the idle thread does once it has set `idle_thread`. -/
def idleCode : List Stmt := [.up idleStarted, .checkPreempt, .idleLoop]

/-- `thread_start` after `thread_create ("idle", ...)` and `intr_enable ()`. The parameters are the
scheduling mode and the values the semaphores were initialised with. -/
def initial (aging mlfqs : Bool) (value : ℕ → ℕ) : St where
  threads t :=
    if t = initialThread then some {
      tid := 1, status := .running, priority := priDefault, nice := 0, recentCpu := 0,
      wakeupTick := 0, level := true, cont := [.down idleStarted], stamp := 0, moved := false }
    else if t = idlePage then some {
      tid := 2, status := .ready, priority := priMin, nice := 0, recentCpu := 0,
      wakeupTick := 0, level := false, cont := .kernelThread :: .setIdle :: idleCode, stamp := 0,
      moved := false }
    else none
  readyList := [idlePage]
  sleepList := []
  allList := [initialThread, idlePage]
  sema
    | .plain n => ⟨if n = 0 then 0 else value n, []⟩
    | .lock _ => ⟨1, []⟩
    | .waiter _ => ⟨0, []⟩
  holder _ := none
  condWaiters _ := []
  idleThread := none
  cur := initialThread
  nextTid := 3
  ticks := 0
  threadTicks := 0
  loadAvg := 0
  aging := aging
  mlfqs := mlfqs
  yieldOnReturn := false
  panicked := false
  clock := 1
  dispatches := 0

/-- The kernel's threads, in every scheduling mode. -/
def sys : System St Act where
  init s := ∃ aging mlfqs value, s = initial aging mlfqs value
  step := step

end Threads
end Pintos
