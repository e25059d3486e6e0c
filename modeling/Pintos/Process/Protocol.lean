import Pintos.Systems.System

/-!
# The exec / wait / exit protocol

The part of `userprog/process.c` through which a process and its children share `struct thread`
records: `process_execute`, `get_child_process`, `start_process`, `process_wait` and
`process_exit`, with `thread_create` and `thread_schedule_tail` of `threads/thread.c`.

A record lives in a page. `St.mem` maps a page to the record in it, and to `none` when the page is
free, so that `thread_schedule_tail` is the step that makes the page `none` again and a later
`thread_create` may hand the same page out. What the code keeps of a child is the address of its
page; `Ref` pairs that address with the `tid` the record had, which no step reads and which tells
whether a pointer still means the record it was made for (`St.Alive`).

`childList` holds the `Child_elem`s in list order. The links of an element are those of the list
it was last pushed on, which is the list of its record's `parent`, so `listNext` reads the record
at the element's address first. Reading a free page ends the run with `panicked`: the page holds
`0xcc` (`palloc_free_multiple`), and the next access through it faults in the kernel.

One action is one step of one thread, and any thread may take the next one, which is what
preemption between any two steps with interrupts on amounts to. A semaphore is its value: the
bodies of `sema_down` and `sema_up` run with interrupts off, and a `sema_down` that finds 0 is not
enabled.
-/

namespace Pintos
namespace Process

/-- The page of a `struct thread`. -/
abbrev Addr := ℕ

/-- `TID_ERROR`, and the result of a `process_wait` that finds no child. -/
def tidError : ℤ := -1

/-- A pointer to a child's record. The code holds `addr`; `tid` is ghost and names the record that
was there when the pointer was made. -/
structure Ref where
  addr : Addr
  tid : ℤ
  deriving DecidableEq, Repr

/-- A `struct list_elem *` into a `Child_list`: the `Child_elem` of a record, or the `tail` of the
list inside the record at `owner`. -/
inductive Elem
  | child (r : Ref)
  | tail (owner : Addr)
  deriving DecidableEq, Repr

/-- Which of its two callers `get_child_process` returns to. -/
inductive Caller
  | execute
  | wait
  deriving DecidableEq, Repr

/-- Where a thread is. The names follow the statements of `process.c`. -/
inductive Pc
  -- `start_process` before the allocation of `Fd_table`.
  | start
  -- `start_process` before `load`.
  | load
  -- `start_process` before `sema_up (&Load_sema)`.
  | upLoad (success : Bool)
  -- `start_process` after it.
  | loaded (success : Bool)
  -- User code, or the code of a kernel thread between two calls.
  | user
  -- The idle thread, which takes no part in the protocol.
  | idle
  -- `get_child_process`: the test of the loop and of `t->tid == tid` at `e`.
  | find (k : Caller) (tid : ℤ) (e : Elem)
  -- `get_child_process`: `e = list_next (e)`.
  | findNext (k : Caller) (tid : ℤ) (c : Ref)
  -- `process_execute`: `sema_down (&Child->Load_sema)`.
  | execDown (c : Ref)
  -- `process_execute`: the test of `Child->is_loaded`.
  | execRead (c : Ref)
  -- `process_wait`: `sema_down (&Child->Exit_sema)`.
  | waitDown (tid : ℤ) (c : Ref)
  -- `process_wait`: `status = Child->exit_status`.
  | waitRead (tid : ℤ) (c : Ref)
  -- `process_wait`: `list_remove (&Child->Child_elem)`. Ghost `src`: the record `status` was read
  -- from.
  | waitRemove (tid : ℤ) (c : Ref) (src : ℤ) (status : ℤ)
  -- `process_wait`: `sema_up (&Child->Destroy_sema)` and the return.
  | waitUp (tid : ℤ) (c : Ref) (src : ℤ) (status : ℤ)
  -- `thread_exit`, entering `process_exit`.
  | exitBegin
  -- `process_exit`: the loop test and `sema_up (&...->Destroy_sema)` at `e`.
  | exitLoop (isUser : Bool) (e : Elem)
  -- `process_exit`: `e = list_next (e)` after that `sema_up`.
  | exitNext (isUser : Bool) (c : Ref)
  -- `process_exit`: files, mappings and page directory.
  | exitRest (isUser : Bool)
  -- `process_exit`: `if (is_user_process)` and `sema_up (&cur->Exit_sema)`.
  | exitUp (isUser : Bool)
  -- `process_exit`: `sema_down (&cur->Destroy_sema)`.
  | exitDown
  -- `thread_exit` after `process_exit`: the next `schedule` frees the record.
  | dying
  deriving DecidableEq, Repr

/-- The fields of `struct thread` the protocol reads, with the thread's place in the code. -/
structure Thread where
  tid : ℤ
  -- `Parent`.
  parent : Addr
  -- `Child_list`.
  childList : List Ref
  -- `exit_status`.
  exitStatus : ℤ
  -- `is_loaded`.
  isLoaded : Bool
  -- `pagedir != NULL`.
  pagedir : Bool
  -- `Fd_table != NULL`.
  fdTable : Bool
  -- The value of `Load_sema`.
  loadSema : ℕ
  -- The value of `Exit_sema`.
  exitSema : ℕ
  -- The value of `Destroy_sema`.
  destroySema : ℕ
  pc : Pc
  deriving DecidableEq, Repr

/-- What an outside observer sees of the protocol. -/
inductive Event
  -- `p` created the child `c`.
  | spawned (p c : ℤ)
  -- `c` called `exit (status)`.
  | exitCall (c : ℤ) (status : ℤ)
  -- `c` was killed by an exception.
  | killed (c : ℤ)
  -- `load` failed in `c`.
  | loadFailed (c : ℤ)
  -- `c` executed `sema_up (&cur->Exit_sema)`.
  | exitUp (c : ℤ)
  -- `process_wait (c)` called by `p` returned `status`, read from the record of `src`, or -1 from
  -- no record.
  | waited (p c : ℤ) (src : Option ℤ) (status : ℤ)
  deriving DecidableEq, Repr

structure St where
  -- The record in each page, `none` for a free page.
  mem : Addr → Option Thread
  -- `next_tid` of `allocate_tid`.
  nextTid : ℤ
  -- A free page was read.
  panicked : Bool
  -- Ghost: the events so far, newest first.
  log : List Event

/-- The choices a step leaves open. -/
inductive Op
  -- `palloc_get_page (PAL_ZERO)` for `Fd_table` succeeds or not.
  | startFd (ok : Bool)
  -- `load`: `pd` says that `pagedir_create` and `page_table_init` succeed, `ok` that the rest
  -- does.
  | load (pd ok : Bool)
  -- `process_execute`; `none` when the page for the command line or for the record is refused.
  | exec (page : Option Addr)
  -- `process_wait (tid)`.
  | wait (tid : ℤ)
  -- The system call `exit (status)`.
  | exit (status : ℤ)
  -- `thread_exit` from the exception handler, or at the end of a kernel thread.
  | kill
  -- Go on with the code at the thread's place.
  | next
  deriving DecidableEq, Repr

/-- A step of the thread whose record is at `actor`. -/
structure Act where
  actor : Addr
  op : Op
  deriving DecidableEq, Repr

/-- The page of `initial_thread`, which is never freed. -/
def initialThread : Addr := 0

/-- The page of the idle thread. -/
def idleThread : Addr := 1

/-! ### Lists of children -/

/-- `list_begin (&cur->Child_list)` for the record at `a`. -/
def listBegin (a : Addr) : List Ref → Elem
  | [] => .tail a
  | r :: _ => .child r

/-- The part of a list that follows the element at address `x`. -/
def listAfter (x : Addr) : List Ref → List Ref
  | [] => []
  | r :: l => if r.addr = x then l else listAfter x l

/-- The element in front of the one at address `x`. -/
def listPrev (x : Addr) : List Ref → Option Ref
  | [] => none
  | [_] => none
  | r :: r' :: l => if r'.addr = x then some r else listPrev x (r' :: l)

/-- `list_remove` of the element at address `x`. -/
def listRemove (x : Addr) (l : List Ref) : List Ref := l.eraseP fun r => r.addr = x

/-- The `Child_list` the record at `o` owns. -/
def St.kids (s : St) (o : Addr) : List Ref :=
  match s.mem o with
  | some t => t.childList
  | none => []

/-- `list_next` of the `Child_elem` in the record `c` at address `x`. -/
def St.listNext (s : St) (x : Addr) (c : Thread) : Elem :=
  listBegin c.parent (listAfter x (s.kids c.parent))

/-! ### Steps -/

/-- Change the record at `a`. -/
def St.upd (s : St) (a : Addr) (f : Thread → Thread) : St :=
  { s with mem := Function.update s.mem a ((s.mem a).map f) }

/-- Move the thread at `a` to `pc`. -/
def St.goto (s : St) (a : Addr) (pc : Pc) : St := s.upd a fun t => { t with pc := pc }

/-- Record an event. -/
def St.note (s : St) (e : Event) : St := { s with log := e :: s.log }

/-- A free page was read through a pointer. -/
def St.panic (s : St) : St := { s with panicked := true }

/-- Go on with `k` at the record a pointer leads to. -/
def St.deref (s : St) (x : Addr) (k : Thread → Option St) : Option St :=
  match s.mem x with
  | none => some s.panic
  | some c => k c

/-- The record `thread_create` builds (`init_thread` on a zeroed page). -/
def newThread (tid : ℤ) (parent : Addr) : Thread where
  tid := tid
  parent := parent
  childList := []
  exitStatus := 0
  isLoaded := false
  pagedir := false
  fdTable := false
  loadSema := 0
  exitSema := 0
  destroySema := 0
  pc := .start

/-- Put a new record into a free page and count its `tid`. -/
def St.alloc (s : St) (page : Addr) (t : Thread) : St :=
  { s with mem := Function.update s.mem page (some t), nextTid := s.nextTid + 1 }

/-- Free a page. -/
def St.free (s : St) (a : Addr) : St := { s with mem := Function.update s.mem a none }

/-- `thread_create` by the thread `t` at `a`, up to the return in `process_execute`: a record in
the free page `page`, pushed on the caller's `Child_list`. -/
def threadCreate (s : St) (a : Addr) (t : Thread) (page : Addr) : St :=
  let kids := t.childList ++ [⟨page, s.nextTid⟩]
  ((s.alloc page (newThread s.nextTid a)).upd a fun t => { t with
      childList := kids, pc := .find .execute s.nextTid (listBegin a kids) }).note
    (.spawned t.tid s.nextTid)

/-- `get_child_process` returns `Child`. -/
def found : Caller → ℤ → Ref → Pc
  | .execute, _, c => .execDown c
  | .wait, tid, c => .waitDown tid c

/-- `get_child_process` returns `NULL`: `process_execute` and `process_wait` return -1. -/
def notFound (s : St) (a : Addr) (t : Thread) : Caller → ℤ → St
  | .execute, _ => s.goto a .user
  | .wait, tid => (s.goto a .user).note (.waited t.tid tid none tidError)

/-- `thread_schedule_tail` frees the record of the thread that ended, unless it is the initial
thread's. -/
def scheduleTail (s : St) (a : Addr) : Option St :=
  if a = initialThread then none else some (s.free a)

/-- The deterministic part of the code: what the thread `t` at `a` does next at its place. -/
def next (s : St) (a : Addr) (t : Thread) : Option St :=
  match t.pc with
  | .upLoad ok => some (s.upd a fun t => { t with loadSema := t.loadSema + 1, pc := .loaded ok })
  | .loaded ok => some (s.goto a (if ok then .user else .exitBegin))
  | .find k tid e =>
    match e with
    | .tail o => if o = a then some (notFound s a t k tid) else some s.panic
    | .child r => s.deref r.addr fun c =>
        some (s.goto a (if c.tid = tid then found k tid r else .findNext k tid r))
  | .findNext k tid r => s.deref r.addr fun c =>
      some (s.goto a (.find k tid (s.listNext r.addr c)))
  | .execDown r => s.deref r.addr fun c =>
      if c.loadSema = 0 then none
      else some ((s.goto a (.execRead r)).upd r.addr fun c =>
        { c with loadSema := c.loadSema - 1 })
  | .execRead r => s.deref r.addr fun _ => some (s.goto a .user)
  | .waitDown tid r => s.deref r.addr fun c =>
      if c.exitSema = 0 then none
      else some ((s.goto a (.waitRead tid r)).upd r.addr fun c =>
        { c with exitSema := c.exitSema - 1 })
  | .waitRead tid r => s.deref r.addr fun c =>
      some (s.goto a (.waitRemove tid r c.tid c.exitStatus))
  | .waitRemove tid r src status => s.deref r.addr fun c =>
      -- the element leaves the list it is linked in, that of its record's `parent`
      s.deref c.parent fun _ => some ((s.goto a (.waitUp tid r src status)).upd c.parent fun p =>
        { p with childList := listRemove r.addr p.childList })
  | .waitUp tid r src status => s.deref r.addr fun _ =>
      some (((s.goto a .user).upd r.addr fun c =>
        { c with destroySema := c.destroySema + 1 }).note (.waited t.tid tid (some src) status))
  | .exitBegin => some (s.goto a (.exitLoop t.pagedir (listBegin a t.childList)))
  | .exitLoop u e =>
    match e with
    | .tail o => if o = a then some (s.goto a (.exitRest u)) else some s.panic
    | .child r => s.deref r.addr fun _ =>
        some ((s.goto a (.exitNext u r)).upd r.addr fun c =>
          { c with destroySema := c.destroySema + 1 })
  | .exitNext u r => s.deref r.addr fun c => some (s.goto a (.exitLoop u (s.listNext r.addr c)))
  | .exitRest u =>
    some (s.upd a fun t => { t with pagedir := false, fdTable := false, pc := .exitUp u })
  | .exitUp u =>
    if u then
      some ((s.upd a fun t => { t with exitSema := t.exitSema + 1, pc := .exitDown }).note
        (.exitUp t.tid))
    else some (s.goto a .dying)
  | .exitDown =>
    if t.destroySema = 0 then none
    else some (s.upd a fun t => { t with destroySema := t.destroySema - 1, pc := .dying })
  | .dying => scheduleTail s a
  | .start | .load | .user | .idle => none

/-- One step of the thread `t` at `a`. -/
def stepAt (s : St) (a : Addr) (t : Thread) : Op → Option St
  | .startFd ok =>
    if t.pc = .start then
      some (s.upd a fun t => { t with exitStatus := -1, fdTable := ok, pc := .load })
    else none
  | .load pd ok =>
    if t.pc = .load then
      -- without a table `load` is not called, and `pagedir` keeps the zero of the fresh page
      let success := t.fdTable && pd && ok
      let s' := s.upd a fun t =>
        { t with pagedir := t.fdTable && pd, isLoaded := success, pc := .upLoad success }
      some (if success then s' else s'.note (.loadFailed t.tid))
    else none
  | .exec none => if t.pc = .user then some s else none
  | .exec (some page) =>
    if t.pc = .user ∧ s.mem page = none then some (threadCreate s a t page) else none
  | .wait tid =>
    if t.pc = .user then some (s.goto a (.find .wait tid (listBegin a t.childList))) else none
  | .exit status =>
    if t.pc = .user then
      some ((s.upd a fun t => { t with exitStatus := status, pc := .exitBegin }).note
        (.exitCall t.tid status))
    else none
  | .kill => if t.pc = .user then some ((s.goto a .exitBegin).note (.killed t.tid)) else none
  | .next => next s a t

/-- One step of one thread. -/
def step (s : St) (x : Act) : Option St :=
  if s.panicked then none
  else (s.mem x.actor).bind fun t => stepAt s x.actor t x.op

/-- After `thread_start`: the initial thread runs the code of `init.c`, and the idle thread is
registered as its child. -/
def initial : St where
  mem a :=
    if a = initialThread then
      some { newThread 1 initialThread with pc := .user, childList := [⟨idleThread, 2⟩] }
    else if a = idleThread then some { newThread 2 initialThread with pc := .idle }
    else none
  nextTid := 3
  panicked := false
  log := [.spawned 1 2]

/-- The exec / wait / exit protocol over any number of processes. -/
def sys : System St Act where
  init s := s = initial
  step := step

/-! ### Memory after an update -/

section Memory

variable {s : St} {a b : Addr} {t t' : Thread} {f g : Thread → Thread}

theorem St.upd_mem_self (ht : s.mem a = some t) : (s.upd a f).mem a = some (f t) := by
  simp [St.upd, ht]

theorem St.upd_mem_of_ne (h : b ≠ a) : (s.upd a f).mem b = s.mem b := by
  simp [St.upd, Function.update_of_ne h]

theorem St.upd_upd_self : (s.upd a f).upd a g = s.upd a (g ∘ f) := by
  simp [St.upd]

/-- A record after an update of `a` is the updated one or an old one. -/
theorem St.upd_mem_cases (ht : s.mem a = some t) (hb : (s.upd a f).mem b = some t') :
    (b = a ∧ t' = f t) ∨ (b ≠ a ∧ s.mem b = some t') := by
  by_cases hba : b = a
  · subst hba
    rw [St.upd_mem_self ht] at hb
    exact .inl ⟨rfl, (Option.some.inj hb).symm⟩
  · rw [St.upd_mem_of_ne hba] at hb
    exact .inr ⟨hba, hb⟩

end Memory

/-! ### Accesses to children's records -/

/-- The pointer `r` still means the record it was made for. -/
def St.Alive (s : St) (r : Ref) : Prop := ∃ c, s.mem r.addr = some c ∧ c.tid = r.tid

/-- The children's records that the code at the thread's place reads or writes: the child itself,
and for the list operations the neighbours whose links change. -/
def touchesAt (s : St) (t : Thread) : Op → List Ref
  | .exec (some _) => if t.pc = .user then t.childList.getLast?.toList else []
  | .next =>
    match t.pc with
    | .find _ _ (.child r) => [r]
    | .findNext _ _ r => [r]
    | .execDown r => [r]
    | .execRead r => [r]
    | .waitDown _ r => [r]
    | .waitRead _ r => [r]
    | .waitRemove _ r _ _ =>
      let kids := match s.mem r.addr with
        | some c => s.kids c.parent
        | none => []
      r :: ((listPrev r.addr kids).toList ++ (listAfter r.addr kids).head?.toList)
    | .waitUp _ r _ _ => [r]
    | .exitLoop _ (.child r) => [r]
    | .exitNext _ r => [r]
    | _ => []
  | _ => []

/-- The children's records an action reads or writes in `get_child_process`, `process_execute`,
`process_wait` and the `Child_list` loop of `process_exit`. -/
def touches (s : St) (x : Act) : List Ref :=
  match s.mem x.actor with
  | none => []
  | some t => touchesAt s t x.op

/-! ### The steps as a relation -/

/-- What one step of the thread `t` at `a` can do. The last three constructors are the accesses
through a pointer that leads to no record of the list walked. -/
inductive Trans (s : St) (a : Addr) (t : Thread) : Op → St → Prop
  | startFd {ok : Bool} (hpc : t.pc = .start) : Trans s a t (.startFd ok)
      (s.upd a fun t => { t with exitStatus := -1, fdTable := ok, pc := .load })
  | loadOk {pd ok : Bool} (hpc : t.pc = .load) (hok : (t.fdTable && pd && ok) = true) :
      Trans s a t (.load pd ok)
        (s.upd a fun t => { t with
          pagedir := t.fdTable && pd, isLoaded := true, pc := .upLoad true })
  | loadFail {pd ok : Bool} (hpc : t.pc = .load) (hok : (t.fdTable && pd && ok) = false) :
      Trans s a t (.load pd ok)
        ((s.upd a fun t => { t with
          pagedir := t.fdTable && pd, isLoaded := false, pc := .upLoad false }).note
          (.loadFailed t.tid))
  | execRefused (hpc : t.pc = .user) : Trans s a t (.exec none) s
  | exec {page : Addr} (hpc : t.pc = .user) (hfree : s.mem page = none) :
      Trans s a t (.exec (some page)) (threadCreate s a t page)
  | wait {tid : ℤ} (hpc : t.pc = .user) :
      Trans s a t (.wait tid) (s.goto a (.find .wait tid (listBegin a t.childList)))
  | exit {status : ℤ} (hpc : t.pc = .user) : Trans s a t (.exit status)
      ((s.upd a fun t => { t with exitStatus := status, pc := .exitBegin }).note
        (.exitCall t.tid status))
  | kill (hpc : t.pc = .user) : Trans s a t .kill ((s.goto a .exitBegin).note (.killed t.tid))
  | upLoad {ok : Bool} (hpc : t.pc = .upLoad ok) : Trans s a t .next
      (s.upd a fun t => { t with loadSema := t.loadSema + 1, pc := .loaded ok })
  | loaded {ok : Bool} (hpc : t.pc = .loaded ok) :
      Trans s a t .next (s.goto a (if ok then .user else .exitBegin))
  | notFoundExecute {tid : ℤ} (hpc : t.pc = .find .execute tid (.tail a)) :
      Trans s a t .next (s.goto a .user)
  | notFoundWait {tid : ℤ} (hpc : t.pc = .find .wait tid (.tail a)) :
      Trans s a t .next ((s.goto a .user).note (.waited t.tid tid none tidError))
  | find {k : Caller} {tid : ℤ} {r : Ref} {c : Thread} (hpc : t.pc = .find k tid (.child r))
      (hc : s.mem r.addr = some c) : Trans s a t .next
        (s.goto a (if c.tid = tid then found k tid r else .findNext k tid r))
  | findNext {k : Caller} {tid : ℤ} {r : Ref} {c : Thread} (hpc : t.pc = .findNext k tid r)
      (hc : s.mem r.addr = some c) :
      Trans s a t .next (s.goto a (.find k tid (s.listNext r.addr c)))
  | execDown {r : Ref} {c : Thread} (hpc : t.pc = .execDown r) (hc : s.mem r.addr = some c)
      (hup : c.loadSema ≠ 0) : Trans s a t .next
        ((s.goto a (.execRead r)).upd r.addr fun c => { c with loadSema := c.loadSema - 1 })
  | execRead {r : Ref} {c : Thread} (hpc : t.pc = .execRead r) (hc : s.mem r.addr = some c) :
      Trans s a t .next (s.goto a .user)
  | waitDown {tid : ℤ} {r : Ref} {c : Thread} (hpc : t.pc = .waitDown tid r)
      (hc : s.mem r.addr = some c) (hup : c.exitSema ≠ 0) : Trans s a t .next
        ((s.goto a (.waitRead tid r)).upd r.addr fun c => { c with exitSema := c.exitSema - 1 })
  | waitRead {tid : ℤ} {r : Ref} {c : Thread} (hpc : t.pc = .waitRead tid r)
      (hc : s.mem r.addr = some c) :
      Trans s a t .next (s.goto a (.waitRemove tid r c.tid c.exitStatus))
  | waitRemove {tid src : ℤ} {r : Ref} {status : ℤ} {c p : Thread}
      (hpc : t.pc = .waitRemove tid r src status) (hc : s.mem r.addr = some c)
      (hp : s.mem c.parent = some p) : Trans s a t .next
        ((s.goto a (.waitUp tid r src status)).upd c.parent fun p =>
          { p with childList := listRemove r.addr p.childList })
  | waitUp {tid src : ℤ} {r : Ref} {status : ℤ} {c : Thread}
      (hpc : t.pc = .waitUp tid r src status) (hc : s.mem r.addr = some c) : Trans s a t .next
        (((s.goto a .user).upd r.addr fun c => { c with destroySema := c.destroySema + 1 }).note
          (.waited t.tid tid (some src) status))
  | exitBegin (hpc : t.pc = .exitBegin) :
      Trans s a t .next (s.goto a (.exitLoop t.pagedir (listBegin a t.childList)))
  | exitEnd {u : Bool} (hpc : t.pc = .exitLoop u (.tail a)) :
      Trans s a t .next (s.goto a (.exitRest u))
  | exitRelease {u : Bool} {r : Ref} {c : Thread} (hpc : t.pc = .exitLoop u (.child r))
      (hc : s.mem r.addr = some c) : Trans s a t .next
        ((s.goto a (.exitNext u r)).upd r.addr fun c => { c with destroySema := c.destroySema + 1 })
  | exitNext {u : Bool} {r : Ref} {c : Thread} (hpc : t.pc = .exitNext u r)
      (hc : s.mem r.addr = some c) :
      Trans s a t .next (s.goto a (.exitLoop u (s.listNext r.addr c)))
  | exitRest {u : Bool} (hpc : t.pc = .exitRest u) : Trans s a t .next
      (s.upd a fun t => { t with pagedir := false, fdTable := false, pc := .exitUp u })
  | exitUpUser (hpc : t.pc = .exitUp true) : Trans s a t .next
      ((s.upd a fun t => { t with exitSema := t.exitSema + 1, pc := .exitDown }).note
        (.exitUp t.tid))
  | exitUpKernel (hpc : t.pc = .exitUp false) : Trans s a t .next (s.goto a .dying)
  | exitDown (hpc : t.pc = .exitDown) (hup : t.destroySema ≠ 0) : Trans s a t .next
      (s.upd a fun t => { t with destroySema := t.destroySema - 1, pc := .dying })
  | free (hpc : t.pc = .dying) (ha : a ≠ initialThread) : Trans s a t .next (s.free a)
  | dangling {r : Ref} (hr : r ∈ touchesAt s t .next) (hm : s.mem r.addr = none) :
      Trans s a t .next s.panic
  | foreignTail {o : Addr} (ho : o ≠ a)
      (hpc : (∃ k tid, t.pc = .find k tid (.tail o)) ∨ ∃ u, t.pc = .exitLoop u (.tail o)) :
      Trans s a t .next s.panic
  | orphan {tid src : ℤ} {r : Ref} {status : ℤ} {c : Thread}
      (hpc : t.pc = .waitRemove tid r src status) (hc : s.mem r.addr = some c)
      (hp : s.mem c.parent = none) : Trans s a t .next s.panic

/-- **Inversion of `next`.** -/
theorem next_trans {s s' : St} {a : Addr} {t : Thread} (h : next s a t = some s') :
    Trans s a t .next s' := by
  have dangling : ∀ {r : Ref} {k : Thread → Option St}, r ∈ touchesAt s t .next →
      (∀ c, s.mem r.addr = some c → k c = some s' → Trans s a t .next s') →
      s.deref r.addr k = some s' → Trans s a t .next s' := by
    intro r k hr hk hd
    rw [St.deref] at hd
    cases hm : s.mem r.addr with
    | none =>
      rw [hm] at hd
      obtain rfl := Option.some.inj hd
      exact .dangling hr hm
    | some c =>
      rw [hm] at hd
      exact hk c hm hd
  cases hpc : t.pc with
  | upLoad ok =>
    simp only [next, hpc] at h
    cases h
    exact .upLoad hpc
  | loaded ok =>
    simp only [next, hpc] at h
    cases h
    exact .loaded hpc
  | find k tid e =>
    cases e with
    | tail o =>
      simp only [next, hpc] at h
      by_cases ho : o = a
      · subst ho
        rw [if_pos rfl] at h
        cases h
        cases k with
        | execute => exact .notFoundExecute hpc
        | wait => exact .notFoundWait hpc
      · rw [if_neg ho] at h
        cases h
        exact .foreignTail ho (.inl ⟨k, tid, hpc⟩)
    | child r =>
      simp only [next, hpc] at h
      refine dangling (by simp [touchesAt, hpc]) (fun c hc hk => ?_) h
      cases hk
      exact .find hpc hc
  | findNext k tid r =>
    simp only [next, hpc] at h
    refine dangling (by simp [touchesAt, hpc]) (fun c hc hk => ?_) h
    cases hk
    exact .findNext hpc hc
  | execDown r =>
    simp only [next, hpc] at h
    refine dangling (by simp [touchesAt, hpc]) (fun c hc hk => ?_) h
    by_cases hz : c.loadSema = 0
    · simp [hz] at hk
    · rw [if_neg hz] at hk
      cases hk
      exact .execDown hpc hc hz
  | execRead r =>
    simp only [next, hpc] at h
    refine dangling (by simp [touchesAt, hpc]) (fun c hc hk => ?_) h
    cases hk
    exact .execRead hpc hc
  | waitDown tid r =>
    simp only [next, hpc] at h
    refine dangling (by simp [touchesAt, hpc]) (fun c hc hk => ?_) h
    by_cases hz : c.exitSema = 0
    · simp [hz] at hk
    · rw [if_neg hz] at hk
      cases hk
      exact .waitDown hpc hc hz
  | waitRead tid r =>
    simp only [next, hpc] at h
    refine dangling (by simp [touchesAt, hpc]) (fun c hc hk => ?_) h
    cases hk
    exact .waitRead hpc hc
  | waitRemove tid r src status =>
    simp only [next, hpc] at h
    refine dangling (by simp [touchesAt, hpc]) (fun c hc hk => ?_) h
    rw [St.deref] at hk
    cases hp : s.mem c.parent with
    | none =>
      rw [hp] at hk
      obtain rfl := Option.some.inj hk
      exact .orphan hpc hc hp
    | some p =>
      rw [hp] at hk
      obtain rfl := Option.some.inj hk
      exact .waitRemove hpc hc hp
  | waitUp tid r src status =>
    simp only [next, hpc] at h
    refine dangling (by simp [touchesAt, hpc]) (fun c hc hk => ?_) h
    cases hk
    exact .waitUp hpc hc
  | exitBegin =>
    simp only [next, hpc] at h
    cases h
    exact .exitBegin hpc
  | exitLoop u e =>
    cases e with
    | tail o =>
      simp only [next, hpc] at h
      by_cases ho : o = a
      · subst ho
        rw [if_pos rfl] at h
        cases h
        exact .exitEnd hpc
      · rw [if_neg ho] at h
        cases h
        exact .foreignTail ho (.inr ⟨u, hpc⟩)
    | child r =>
      simp only [next, hpc] at h
      refine dangling (by simp [touchesAt, hpc]) (fun c hc hk => ?_) h
      cases hk
      exact .exitRelease hpc hc
  | exitNext u r =>
    simp only [next, hpc] at h
    refine dangling (by simp [touchesAt, hpc]) (fun c hc hk => ?_) h
    cases hk
    exact .exitNext hpc hc
  | exitRest u =>
    simp only [next, hpc] at h
    cases h
    exact .exitRest hpc
  | exitUp u =>
    simp only [next, hpc] at h
    cases u with
    | true => cases h; exact .exitUpUser hpc
    | false => cases h; exact .exitUpKernel hpc
  | exitDown =>
    simp only [next, hpc] at h
    by_cases hz : t.destroySema = 0
    · simp [hz] at h
    · rw [if_neg hz] at h
      cases h
      exact .exitDown hpc hz
  | dying =>
    simp only [next, hpc] at h
    rw [scheduleTail] at h
    by_cases ha : a = initialThread
    · simp [ha] at h
    · rw [if_neg ha] at h
      cases h
      exact .free hpc ha
  | start | load | user | idle => simp [next, hpc] at h

/-- **Inversion of the step function.** -/
theorem step_trans {s s' : St} {x : Act} (h : step s x = some s') :
    s.panicked = false ∧ ∃ t, s.mem x.actor = some t ∧ Trans s x.actor t x.op s' := by
  rw [step] at h
  cases hp : s.panicked with
  | true => simp [hp] at h
  | false =>
    rw [hp, if_neg (by simp)] at h
    obtain ⟨t, ht, hs⟩ := Option.bind_eq_some_iff.mp h
    refine ⟨rfl, t, ht, ?_⟩
    obtain ⟨a, op⟩ := x
    cases op with
    | startFd ok =>
      obtain ⟨hpc, hs⟩ := Option.ite_none_right_eq_some.mp hs
      cases hs
      exact .startFd hpc
    | load pd ok =>
      obtain ⟨hpc, hs⟩ := Option.ite_none_right_eq_some.mp hs
      cases hok : (t.fdTable && pd && ok) with
      | true =>
        rw [hok] at hs
        cases hs
        exact .loadOk hpc hok
      | false =>
        rw [hok] at hs
        cases hs
        exact .loadFail hpc hok
    | exec page =>
      cases page with
      | none =>
        obtain ⟨hpc, hs⟩ := Option.ite_none_right_eq_some.mp hs
        cases hs
        exact .execRefused hpc
      | some page =>
        obtain ⟨⟨hpc, hfree⟩, hs⟩ := Option.ite_none_right_eq_some.mp hs
        cases hs
        exact .exec hpc hfree
    | wait tid =>
      obtain ⟨hpc, hs⟩ := Option.ite_none_right_eq_some.mp hs
      cases hs
      exact .wait hpc
    | exit status =>
      obtain ⟨hpc, hs⟩ := Option.ite_none_right_eq_some.mp hs
      cases hs
      exact .exit hpc
    | kill =>
      obtain ⟨hpc, hs⟩ := Option.ite_none_right_eq_some.mp hs
      cases hs
      exact .kill hpc
    | next => exact next_trans hs

end Process
end Pintos
