import Pintos.Process.Protocol

/-!
# Lifetime of the children's records

When a parent may still read a child's record. A record is freed by `thread_schedule_tail` once its
thread is past `sema_down (&cur->Destroy_sema)`, so the parent must not have raised that semaphore
for a record it goes on to read. Two things break this:

* a child without a page directory is no user process, and dies without waiting for its parent;
* `process_exit` raises a child's `Destroy_sema` and then takes `list_next` of its `Child_elem`.

`Careful` leaves out the steps that lead there: an allocation that is refused, and the freeing of a
record the list walk of an exiting process stands on. Under it the records a process still has to
read, `owned`, are kept: their `Destroy_sema` is 0 and their thread is not past it (`Inv`). The
main result is `alive_of_touches`.
-/

namespace Pintos
namespace Process

/-! ### The condition on runs -/

/-- `start_process` obtains its `Fd_table`, and `load` its page directory and `Spt`. -/
def Op.allocated : Op → Bool
  | .startFd ok => ok
  | .load pd _ => pd
  | _ => true

/-- No process stands with `list_next` on the record of the thread at `a`. -/
def Unstood (s : St) (a : Addr) : Prop :=
  ∀ b t u r, s.mem b = some t → t.pc = .exitNext u r → r.addr ≠ a

/-- The allocations of `start_process` and `load` succeed, and no record is freed between the
`sema_up` of its `Destroy_sema` in `process_exit` and the `list_next` that follows. -/
def Careful (s : St) (x : Act) : Prop :=
  x.op.allocated = true ∧ ∀ t, s.mem x.actor = some t → t.pc = .dying → Unstood s x.actor

/-! ### Walking a list with distinct addresses -/

theorem mem_of_mem_listAfter {x : Addr} {r : Ref} {l : List Ref} (h : r ∈ listAfter x l) :
    r ∈ l := by
  induction l with
  | nil => exact h
  | cons r' l ih =>
    rw [listAfter] at h
    split at h
    · exact List.mem_cons_of_mem _ h
    · exact List.mem_cons_of_mem _ (ih h)

/-- The element itself does not follow itself. -/
theorem addr_ne_of_mem_listAfter {x : Addr} {r : Ref} {l : List Ref}
    (hnd : (l.map Ref.addr).Nodup) (h : r ∈ listAfter x l) : r.addr ≠ x := by
  induction l with
  | nil => exact absurd h List.not_mem_nil
  | cons r' l ih =>
    rw [List.map_cons, List.nodup_cons] at hnd
    rw [listAfter] at h
    split at h
    · next heq =>
      intro hrx
      exact hnd.1 (List.mem_map.mpr ⟨r, h, by rw [hrx, heq]⟩)
    · exact ih hnd.2 h

/-- Going on from the element after `x` is going on from `x`, one element later. -/
theorem listAfter_listAfter {x : Addr} {r : Ref} {l l' : List Ref}
    (hnd : (l.map Ref.addr).Nodup) (h : listAfter x l = r :: l') :
    listAfter r.addr l = l' := by
  induction l with
  | nil => simp [listAfter] at h
  | cons r' l ih =>
    rw [List.map_cons, List.nodup_cons] at hnd
    have hmem : r ∈ l := by
      rw [listAfter] at h
      split at h
      · rw [h]; exact List.mem_cons_self
      · exact mem_of_mem_listAfter (h ▸ List.mem_cons_self)
    have hne : r'.addr ≠ r.addr := by
      intro heq
      exact hnd.1 (heq ▸ List.mem_map_of_mem hmem)
    rw [listAfter, if_neg hne]
    rw [listAfter] at h
    split at h
    · rw [h, listAfter, if_pos rfl]
    · exact ih hnd.2 h

theorem mem_of_listPrev {x : Addr} {r : Ref} {l : List Ref} (h : listPrev x l = some r) :
    r ∈ l := by
  induction l with
  | nil => simp [listPrev] at h
  | cons r₁ l ih =>
    cases l with
    | nil => simp [listPrev] at h
    | cons r₂ l =>
      rw [listPrev] at h
      split at h
      · cases h; exact List.mem_cons_self
      · exact List.mem_cons_of_mem _ (ih h)

theorem nodup_listRemove {x : Addr} {l : List Ref} (hnd : (l.map Ref.addr).Nodup) :
    ((listRemove x l).map Ref.addr).Nodup :=
  hnd.sublist ((List.eraseP_sublist (l := l)).map Ref.addr)

theorem addr_notMem_listRemove {x : Addr} {l : List Ref} (hnd : (l.map Ref.addr).Nodup) :
    x ∉ (listRemove x l).map Ref.addr := by
  induction l with
  | nil => simp [listRemove]
  | cons r l ih =>
    rw [List.map_cons, List.nodup_cons] at hnd
    rw [listRemove]
    by_cases hr : r.addr = x
    · rw [List.eraseP_cons_of_pos (by simpa using hr), ← hr]
      exact hnd.1
    · rw [List.eraseP_cons_of_neg (by simpa using hr), List.map_cons, List.mem_cons, not_or]
      exact ⟨fun h => hr h.symm, ih hnd.2⟩

/-! ### The invariant -/

/-- The children's records the thread may still read: all of its `Child_list` until `process_exit`
walks it, then what lies ahead of the walk, and a child taken off the list by `process_wait` until
its `Destroy_sema` is raised. -/
def owned (t : Thread) : List Ref :=
  match t.pc with
  | .waitUp _ r _ _ => r :: t.childList
  | .exitLoop _ (.child r) => r :: listAfter r.addr t.childList
  | .exitLoop _ (.tail _) => []
  | .exitNext _ r => listAfter r.addr t.childList
  | .exitRest _ => []
  | .exitUp _ => []
  | .exitDown => []
  | .dying => []
  | _ => t.childList

/-- The cursors of a thread point into its own `Child_list`. -/
def CursorOK (a : Addr) (t : Thread) : Prop :=
  match t.pc with
  | .find _ _ (.child r) => r ∈ t.childList
  | .find _ _ (.tail o) => o = a
  | .findNext _ _ r => r ∈ t.childList
  | .execDown r => r ∈ t.childList
  | .execRead r => r ∈ t.childList
  | .waitDown _ r => r ∈ t.childList
  | .waitRead _ r => r ∈ t.childList
  | .waitRemove _ r _ _ => r ∈ t.childList
  | .waitUp _ r _ _ => r.addr ∉ t.childList.map Ref.addr
  | .exitLoop _ (.child r) => r ∈ t.childList
  | .exitLoop _ (.tail o) => o = a
  | .exitNext _ r => r ∈ t.childList
  | _ => True

/-- A thread that got its page directory counts as a user process to its end. -/
def UserOK (t : Thread) : Prop :=
  match t.pc with
  | .start => True
  | .load => t.fdTable = true
  | .idle => True
  | .exitLoop u _ => u = true
  | .exitNext u _ => u = true
  | .exitRest u => u = true
  | .exitUp u => u = true
  | .exitDown => True
  | .dying => True
  | _ => t.pagedir = true

/-- What holds of each record by itself. -/
structure ThreadOK (a : Addr) (t : Thread) : Prop where
  nodup : (t.childList.map Ref.addr).Nodup
  cursor : CursorOK a t
  user : a ≠ initialThread → UserOK t

/-- `r` points to a child record of the process at `a`. -/
def ChildAt (s : St) (a : Addr) (r : Ref) : Prop :=
  ∃ c, s.mem r.addr = some c ∧ c.tid = r.tid ∧ c.parent = a

/-- `r` points to a child record of the process at `a` whose thread cannot die yet. -/
def Held (s : St) (a : Addr) (r : Ref) : Prop :=
  r.addr ≠ initialThread ∧ r.addr ≠ a ∧
    ∃ c, s.mem r.addr = some c ∧ c.tid = r.tid ∧ c.parent = a ∧ c.destroySema = 0 ∧ c.pc ≠ .dying

/-- The lifetime invariant. -/
structure Inv (s : St) : Prop where
  running : s.panicked = false
  boot : s.mem initialThread ≠ none
  /-- Each record by itself. -/
  thread : ∀ a t, s.mem a = some t → ThreadOK a t
  /-- Every child a process may still read is kept for it. -/
  held : ∀ a t, s.mem a = some t → ∀ r ∈ owned t, Held s a r
  /-- The child an exiting process stands on is still there. -/
  stood : ∀ a t, s.mem a = some t → ∀ u r, t.pc = .exitNext u r → ChildAt s a r

theorem Held.childAt {s : St} {a : Addr} {r : Ref} (h : Held s a r) : ChildAt s a r := by
  obtain ⟨-, -, c, hc, htid, hpar, -⟩ := h
  exact ⟨c, hc, htid, hpar⟩

theorem Inv.initial : Inv initial where
  running := rfl
  boot := by simp [Process.initial]
  thread := by
    intro a t ht
    simp only [Process.initial] at ht
    split at ht
    · next ha =>
      cases ht
      exact ⟨by simp, trivial, fun h => absurd ha h⟩
    · split at ht
      · cases ht
        exact ⟨by simp [newThread], trivial, fun _ => trivial⟩
      · cases ht
  held := by
    intro a t ht r hr
    simp only [Process.initial] at ht
    split at ht
    · next ha =>
      cases ht
      -- the idle thread is the only child
      obtain rfl : r = ⟨idleThread, 2⟩ := by simpa [owned] using hr
      subst ha
      refine ⟨by decide, by decide, { newThread 2 initialThread with pc := .idle }, ?_⟩
      simp [Process.initial, newThread, idleThread, initialThread]
    · split at ht
      · cases ht
        simp [owned, newThread] at hr
      · cases ht
  stood := by
    intro a t ht u r hpc
    simp only [Process.initial] at ht
    split at ht
    · cases ht; cases hpc
    · split at ht
      · cases ht; cases hpc
      · cases ht

/-! ### Preservation -/

section Preservation

variable {s s' : St} {a : Addr} {t : Thread}

theorem Inv.note (h : Inv s) (e : Event) : Inv (s.note e) :=
  ⟨h.running, h.boot, h.thread, h.held, h.stood⟩

/-- A thread that may die is kept for nobody. -/
theorem Inv.not_owned (h : Inv s) (ht : s.mem a = some t)
    (hfree : t.destroySema ≠ 0 ∨ t.pc = .dying ∨ a = initialThread) :
    ∀ b tb, s.mem b = some tb → ∀ r ∈ owned tb, r.addr ≠ a := by
  rintro b tb htb r hr rfl
  obtain ⟨hinit, -, c, hc, -, -, hsema, hpc⟩ := h.held b tb htb r hr
  obtain rfl : t = c := Option.some.inj (ht.symm.trans hc)
  rcases hfree with hs | hd | hi
  · exact hs hsema
  · exact hpc hd
  · exact hinit hi

/-- A child kept for the process at `a` is in no other process's hands, and only once in its. -/
theorem Inv.owner_unique (h : Inv s) {b : Addr} {tb : Thread} {r r' : Ref} (hr : ChildAt s a r)
    (htb : s.mem b = some tb) (hr' : r' ∈ owned tb) (haddr : r'.addr = r.addr) : b = a := by
  obtain ⟨c, hc, -, hpar⟩ := hr
  obtain ⟨-, -, c', hc', -, hpar', -⟩ := h.held b tb htb r' hr'
  rw [haddr, hc] at hc'
  obtain rfl := Option.some.inj hc'
  exact hpar'.symm.trans hpar

/-- **One record changes.** The invariant survives when the record keeps its `tid` and `Parent`,
the children it owns are kept for it, and either it still cannot die or nobody keeps it. -/
theorem Inv.upd (h : Inv s) (ht : s.mem a = some t) {f : Thread → Thread}
    (hok : ThreadOK a (f t)) (htid : (f t).tid = t.tid) (hpar : (f t).parent = t.parent)
    (hkept : (t.destroySema = 0 → t.pc ≠ .dying → (f t).destroySema = 0 ∧ (f t).pc ≠ .dying) ∨
      ∀ b tb, s.mem b = some tb → ∀ r ∈ owned tb, r.addr ≠ a)
    (howned : ∀ r ∈ owned (f t), Held s a r)
    (hstood : ∀ u r, (f t).pc = .exitNext u r → ChildAt s a r) : Inv (s.upd a f) := by
  have hchild : ∀ {b r}, ChildAt s b r → ChildAt (s.upd a f) b r := by
    rintro b r ⟨c, hc, hct, hcp⟩
    by_cases hra : r.addr = a
    · rw [hra] at hc
      obtain rfl : t = c := Option.some.inj (ht.symm.trans hc)
      exact ⟨f t, by rw [hra]; exact St.upd_mem_self ht, htid.trans hct, hpar.trans hcp⟩
    · exact ⟨c, by rw [St.upd_mem_of_ne hra]; exact hc, hct, hcp⟩
  have hheld : ∀ {b tb r}, s.mem b = some tb → r ∈ owned tb → Held (s.upd a f) b r := by
    intro b tb r htb hr
    obtain ⟨hinit, hne, c, hc, hct, hcp, hsema, hpc⟩ := h.held b tb htb r hr
    refine ⟨hinit, hne, ?_⟩
    by_cases hra : r.addr = a
    · rw [hra] at hc
      obtain rfl : t = c := Option.some.inj (ht.symm.trans hc)
      rcases hkept with hk | hk
      · obtain ⟨hsema', hpc'⟩ := hk hsema hpc
        exact ⟨f t, by rw [hra]; exact St.upd_mem_self ht, htid.trans hct, hpar.trans hcp,
          hsema', hpc'⟩
      · exact absurd hra (hk b tb htb r hr)
    · exact ⟨c, by rw [St.upd_mem_of_ne hra]; exact hc, hct, hcp, hsema, hpc⟩
  refine ⟨h.running, ?_, ?_, ?_, ?_⟩
  · by_cases hi : initialThread = a
    · rw [hi, St.upd_mem_self ht]; simp
    · rw [St.upd_mem_of_ne hi]; exact h.boot
  · intro b tb htb
    rcases St.upd_mem_cases ht htb with ⟨rfl, rfl⟩ | ⟨-, htb⟩
    · exact hok
    · exact h.thread b tb htb
  · intro b tb htb r hr
    rcases St.upd_mem_cases ht htb with ⟨rfl, rfl⟩ | ⟨-, htb⟩
    · obtain ⟨hinit, hne, c, hc, hrest⟩ := howned r hr
      exact ⟨hinit, hne, c, (St.upd_mem_of_ne hne).trans hc, hrest⟩
    · exact hheld htb hr
  · intro b tb htb u r hpc
    rcases St.upd_mem_cases ht htb with ⟨rfl, rfl⟩ | ⟨-, htb⟩
    · exact hchild (hstood u r hpc)
    · exact hchild (h.stood b tb htb u r hpc)

/-- The thread moves on and keeps the same children. -/
theorem Inv.goto (h : Inv s) (ht : s.mem a = some t) (pc : Pc)
    (hcursor : CursorOK a { t with pc := pc })
    (huser : a ≠ initialThread → UserOK { t with pc := pc }) (hpc : pc ≠ .dying)
    (howned : ∀ r ∈ owned { t with pc := pc }, r ∈ owned t)
    (hstood : ∀ u r, pc = .exitNext u r → ChildAt s a r) : Inv (s.goto a pc) :=
  h.upd ht ⟨(h.thread a t ht).nodup, hcursor, huser⟩ rfl rfl (.inl fun hs _ => ⟨hs, hpc⟩)
    (fun r hr => h.held a t ht r (howned r hr)) hstood

/-- The parent lowers a semaphore of a child that it keeps. -/
theorem Inv.upd_sema (h : Inv s) (ht : s.mem a = some t) {f : Thread → Thread}
    (hf : ∀ c, (f c).tid = c.tid ∧ (f c).parent = c.parent ∧ (f c).childList = c.childList ∧
      (f c).pagedir = c.pagedir ∧ (f c).fdTable = c.fdTable ∧ (f c).pc = c.pc)
    (hkept : (f t).destroySema = t.destroySema ∨
      ∀ b tb, s.mem b = some tb → ∀ r ∈ owned tb, r.addr ≠ a) : Inv (s.upd a f) := by
  obtain ⟨htid, hpar, hlist, hpd, hfd, hpc⟩ := hf t
  have hok := h.thread a t ht
  refine h.upd ht ⟨?_, ?_, ?_⟩ htid hpar ?_ ?_ ?_
  · rw [hlist]; exact hok.nodup
  · unfold CursorOK; rw [hpc, hlist]; exact hok.cursor
  · intro ha
    unfold UserOK
    rw [hpc, hpd, hfd]
    exact hok.user ha
  · rcases hkept with hk | hk
    · left
      intro hs hd
      rw [hk, hpc]
      exact ⟨hs, hd⟩
    · exact .inr hk
  · unfold owned; rw [hpc, hlist]; exact h.held a t ht
  · intro u r hu
    exact h.stood a t ht u r (hpc ▸ hu)

/-- `list_next` of a child of the process at `a` walks that process's own list. -/
theorem listNext_eq (ht : s.mem a = some t) {c : Thread} (hpar : c.parent = a) (x : Addr) :
    s.listNext x c = listBegin a (listAfter x t.childList) := by
  simp [St.listNext, St.kids, hpar, ht]

/-- After the thread at `a` has moved to a place where it does not own `r`, nobody owns `r`. -/
theorem Inv.released (h : Inv s) (ht : s.mem a = some t) {pc : Pc} {r : Ref}
    (hr : ChildAt s a r) (hmine : ∀ r' ∈ owned { t with pc := pc }, r'.addr ≠ r.addr) :
    ∀ b tb, (s.goto a pc).mem b = some tb → ∀ r' ∈ owned tb, r'.addr ≠ r.addr := by
  intro b tb htb r' hr' haddr
  rcases St.upd_mem_cases ht htb with ⟨rfl, rfl⟩ | ⟨hba, htb⟩
  · exact hmine r' hr' haddr
  · exact hba (h.owner_unique hr htb hr' haddr)

/-- The thread at `a` moves on and changes a semaphore of its child `r`. -/
theorem Inv.goto_sema {pc : Pc} {r : Ref} {c : Thread} {f : Thread → Thread}
    (hgoto : Inv (s.goto a pc)) (hne : r.addr ≠ a) (hc : s.mem r.addr = some c)
    (hf : ∀ c, (f c).tid = c.tid ∧ (f c).parent = c.parent ∧ (f c).childList = c.childList ∧
      (f c).pagedir = c.pagedir ∧ (f c).fdTable = c.fdTable ∧ (f c).pc = c.pc)
    (hkept : (f c).destroySema = c.destroySema ∨
      ∀ b tb, (s.goto a pc).mem b = some tb → ∀ r' ∈ owned tb, r'.addr ≠ r.addr) :
    Inv ((s.goto a pc).upd r.addr f) :=
  hgoto.upd_sema ((St.upd_mem_of_ne hne).trans hc) hf hkept

/-- A new record is in nobody's hands. -/
theorem Inv.alloc (h : Inv s) {page : Addr} (hfree : s.mem page = none) :
    Inv (s.alloc page (newThread s.nextTid a)) := by
  have hmem : ∀ {b}, b ≠ page →
      (s.alloc page (newThread s.nextTid a)).mem b = s.mem b := fun hb => by
    simp [St.alloc, Function.update_of_ne hb]
  have hcases : ∀ {b tb}, (s.alloc page (newThread s.nextTid a)).mem b = some tb →
      tb = newThread s.nextTid a ∨ s.mem b = some tb := by
    intro b tb htb
    by_cases hb : b = page
    · subst hb
      simp only [St.alloc, Function.update_self] at htb
      exact .inl (Option.some.inj htb).symm
    · exact .inr (hmem hb ▸ htb)
  have hused : ∀ {x c}, s.mem x = some c → x ≠ page := by
    rintro x c hc rfl
    simp [hfree] at hc
  refine ⟨h.running, ?_, ?_, ?_, ?_⟩
  · have hb : initialThread ≠ page := by
      intro heq
      exact h.boot (heq ▸ hfree)
    rw [hmem hb]
    exact h.boot
  · intro b tb htb
    rcases hcases htb with rfl | htb
    · exact ⟨by simp [newThread], trivial, fun _ => trivial⟩
    · exact h.thread b tb htb
  · intro b tb htb r hr
    rcases hcases htb with rfl | htb
    · simp [owned, newThread] at hr
    · obtain ⟨hinit, hne, c, hc, hrest⟩ := h.held b tb htb r hr
      exact ⟨hinit, hne, c, by rw [hmem (hused hc)]; exact hc, hrest⟩
  · intro b tb htb u r hpc
    rcases hcases htb with rfl | htb
    · cases hpc
    · obtain ⟨c, hc, hrest⟩ := h.stood b tb htb u r hpc
      exact ⟨c, by rw [hmem (hused hc)]; exact hc, hrest⟩

/-- `thread_create` keeps the invariant: the new record is kept for its creator. -/
theorem Inv.exec (h : Inv s) (ht : s.mem a = some t) (hpc : t.pc = .user) {page : Addr}
    (hfree : s.mem page = none) : Inv (threadCreate s a t page) := by
  have hap : a ≠ page := by rintro rfl; simp [ht] at hfree
  have hip : page ≠ initialThread := by rintro rfl; exact h.boot hfree
  have halloc := h.alloc (a := a) hfree
  have ht' : (s.alloc page (newThread s.nextTid a)).mem a = some t := by
    simpa [St.alloc, Function.update_of_ne hap] using ht
  have hok := h.thread a t ht
  have howned : owned t = t.childList := by simp [owned, hpc]
  refine (halloc.upd ht' ⟨?_, ?_, ?_⟩ rfl rfl ?_ ?_ ?_).note _
  · rw [List.map_append, List.nodup_append]
    refine ⟨hok.nodup, by simp, ?_⟩
    rintro x hx y hy rfl
    obtain ⟨r, hr, rfl⟩ := List.mem_map.mp hx
    -- an old child's page is in use, so it is not the new one
    obtain ⟨-, -, c, hc, -⟩ := h.held a t ht r (howned ▸ hr)
    have hrp : r.addr = page := by simpa using hy
    rw [hrp, hfree] at hc
    cases hc
  · cases hk : t.childList with
    | nil | cons r l => simp [CursorOK, listBegin]
  · intro ha
    simpa [UserOK, hpc] using hok.user ha
  · exact .inl fun hs _ => ⟨hs, by simp⟩
  · intro r hr
    have hr' : r ∈ t.childList ++ [⟨page, s.nextTid⟩] := hr
    rcases List.mem_append.mp hr' with hr | hr
    · exact halloc.held a t ht' r (howned ▸ hr)
    · obtain rfl := List.mem_singleton.mp hr
      exact ⟨hip, hap.symm, newThread s.nextTid a, by simp [St.alloc], rfl, rfl, rfl,
        by simp [newThread]⟩
  · intro u r hu
    cases hu

/-- Freeing a record nobody keeps and nobody stands on. -/
theorem Inv.free (h : Inv s) (ht : s.mem a = some t) (hpc : t.pc = .dying) (ha : a ≠ initialThread)
    (hunstood : Unstood s a) : Inv (s.free a) := by
  have hmem : ∀ {b}, b ≠ a → (s.free a).mem b = s.mem b := fun hb => by
    simp [St.free, Function.update_of_ne hb]
  have hold : ∀ {b tb}, (s.free a).mem b = some tb → s.mem b = some tb := by
    intro b tb htb
    by_cases hba : b = a
    · simp [St.free, hba] at htb
    · rwa [hmem hba] at htb
  refine ⟨h.running, ?_, fun b tb htb => h.thread b tb (hold htb), ?_, ?_⟩
  · rw [hmem (Ne.symm ha)]; exact h.boot
  · intro b tb htb r hr
    obtain ⟨hinit, hne, c, hc, hrest⟩ := h.held b tb (hold htb) r hr
    have hra : r.addr ≠ a := h.not_owned ht (.inr (.inl hpc)) b tb (hold htb) r hr
    exact ⟨hinit, hne, c, by rw [hmem hra]; exact hc, hrest⟩
  · intro b tb htb u r hbpc
    obtain ⟨c, hc, hrest⟩ := h.stood b tb (hold htb) u r hbpc
    exact ⟨c, by rw [hmem (hunstood b tb u r (hold htb) hbpc)]; exact hc, hrest⟩

/-- **The records a process reads are there.** -/
theorem Inv.alive_of_touchesAt (h : Inv s) (ht : s.mem a = some t) {op : Op} {r : Ref}
    (hr : r ∈ touchesAt s t op) : s.Alive r := by
  have hheld := h.held a t ht
  have hcur := (h.thread a t ht).cursor
  have hkept : ∀ {r}, Held s a r → s.Alive r := by
    rintro r ⟨-, -, c, hc, htid, -⟩
    exact ⟨c, hc, htid⟩
  unfold owned at hheld
  unfold CursorOK at hcur
  cases op with
  | exec page =>
    cases page with
    | none => simp [touchesAt] at hr
    | some page =>
      by_cases hpc : t.pc = .user
      · -- `list_push_back` writes the last element's link
        have hlast : t.childList.getLast? = some r := by simpa [touchesAt, hpc] using hr
        rw [hpc] at hheld
        exact hkept (hheld r (List.mem_of_getLast? hlast))
      · simp [touchesAt, hpc] at hr
  | next =>
    cases hpc : t.pc with
    | find k tid e =>
      cases e with
      | child r' =>
        obtain rfl : r = r' := by simpa [touchesAt, hpc] using hr
        rw [hpc] at hcur hheld
        exact hkept (hheld r hcur)
      | tail o => simp [touchesAt, hpc] at hr
    | findNext k tid r' | execDown r' | execRead r' | waitDown tid r' | waitRead tid r' =>
      obtain rfl : r = r' := by simpa [touchesAt, hpc] using hr
      rw [hpc] at hcur hheld
      exact hkept (hheld r hcur)
    | waitRemove tid r' src status =>
      rw [hpc] at hcur hheld
      obtain ⟨-, -, c, hc, -, hpar, -⟩ := hheld r' hcur
      have hkids : s.kids c.parent = t.childList := by simp [St.kids, hpar, ht]
      simp only [touchesAt, hpc, hc, hkids, List.mem_cons, List.mem_append,
        Option.mem_toList] at hr
      -- the element, the one in front of it and the one behind it
      rcases hr with rfl | hprev | hnext
      · exact hkept (hheld r hcur)
      · exact hkept (hheld r (mem_of_listPrev hprev))
      · exact hkept (hheld r (mem_of_mem_listAfter (List.mem_of_head? hnext)))
    | waitUp tid r' src status =>
      obtain rfl : r = r' := by simpa [touchesAt, hpc] using hr
      rw [hpc] at hheld
      exact hkept (hheld r List.mem_cons_self)
    | exitLoop u e =>
      cases e with
      | child r' =>
        obtain rfl : r = r' := by simpa [touchesAt, hpc] using hr
        rw [hpc] at hheld
        exact hkept (hheld r List.mem_cons_self)
      | tail o => simp [touchesAt, hpc] at hr
    | exitNext u r' =>
      obtain rfl : r = r' := by simpa [touchesAt, hpc] using hr
      obtain ⟨c, hc, htid, -⟩ := h.stood a t ht u r hpc
      exact ⟨c, hc, htid⟩
    | _ => simp [touchesAt, hpc] at hr
  | _ => simp [touchesAt] at hr

/-- **Invariant preservation.** Every careful step keeps the lifetime invariant. -/
theorem Inv.trans (h : Inv s) (ht : s.mem a = some t) {op : Op} (hcare : Careful s ⟨a, op⟩)
    (htr : Trans s a t op s') : Inv s' := by
  have hok := h.thread a t ht
  have hheld := h.held a t ht
  have hcur := hok.cursor
  have huser := hok.user
  unfold CursorOK at hcur
  unfold UserOK at huser
  unfold owned at hheld
  cases htr with
  | startFd hpc =>
    refine h.upd ht ⟨hok.nodup, trivial, fun _ => hcare.1⟩ rfl rfl (.inl fun hs _ => ⟨hs, by simp⟩)
      ?_ (by simp)
    simpa [owned, hpc] using hheld
  | loadOk hpc hl =>
    refine h.upd ht ⟨hok.nodup, trivial, fun ha => ?_⟩ rfl rfl (.inl fun hs _ => ⟨hs, by simp⟩)
      ?_ (by simp)
    · simp only [Bool.and_eq_true] at hl
      simp [UserOK, hl.1]
    · simpa [owned, hpc] using hheld
  | loadFail hpc hl =>
    refine Inv.note ?_ _
    refine h.upd ht ⟨hok.nodup, trivial, fun ha => ?_⟩ rfl rfl
      (.inl fun hs _ => ⟨hs, by simp⟩) ?_ (by simp)
    · have hfd : t.fdTable = true := by simpa [hpc] using huser ha
      have hpd := hcare.1
      simp only [Op.allocated] at hpd
      simp [UserOK, hfd, hpd]
    · simpa [owned, hpc] using hheld
  | execRefused hpc => exact h
  | exec hpc hfree => exact h.exec ht hpc hfree
  | wait hpc =>
    rw [hpc] at huser hheld
    refine h.goto ht _ ?_ (by simpa [UserOK] using huser) (by simp) ?_ (by simp)
    · cases hk : t.childList with
      | nil | cons r l => simp [CursorOK, listBegin]
    · simp [owned, hpc]
  | exit hpc =>
    rw [hpc] at huser hheld
    refine Inv.note ?_ _
    refine h.upd ht ⟨hok.nodup, trivial, by simpa [UserOK] using huser⟩ rfl rfl
      (.inl fun hs _ => ⟨hs, by simp⟩) ?_ (by simp)
    simpa [owned] using hheld
  | kill hpc | notFoundWait hpc =>
    rw [hpc] at huser
    refine Inv.note ?_ _
    exact h.goto ht _ trivial (by simpa [UserOK] using huser) (by simp)
      (by simp [owned, hpc]) (by simp)
  | upLoad hpc =>
    rw [hpc] at huser hheld
    refine h.upd ht ⟨hok.nodup, trivial, by simpa [UserOK] using huser⟩ rfl rfl
      (.inl fun hs _ => ⟨hs, by simp⟩) ?_ (by simp)
    simpa [owned] using hheld
  | @loaded ok hpc =>
    rw [hpc] at huser
    cases ok with
    | true | false =>
      exact h.goto ht _ trivial (by simpa [UserOK] using huser) (by simp) (by simp [owned, hpc])
        (by simp)
  | notFoundExecute hpc | execRead hpc hc =>
    rw [hpc] at huser
    exact h.goto ht _ trivial (by simpa [UserOK] using huser) (by simp) (by simp [owned, hpc])
      (by simp)
  | @find k tid r c hpc hc =>
    rw [hpc] at huser hcur
    split
    · cases k with
      | execute | wait =>
        exact h.goto ht _ hcur (by simpa [UserOK, found] using huser) (by simp [found])
          (by simp [owned, hpc, found]) (by simp [found])
    · exact h.goto ht _ hcur (by simpa [UserOK] using huser) (by simp) (by simp [owned, hpc])
        (by simp)
  | @findNext k tid r c hpc hc =>
    rw [hpc] at huser hcur hheld
    obtain ⟨-, -, c', hc', -, hpar, -⟩ := hheld r hcur
    obtain rfl : c = c' := Option.some.inj (hc.symm.trans hc')
    rw [listNext_eq ht hpar]
    refine h.goto ht _ ?_ (by simpa [UserOK] using huser) (by simp) (by simp [owned, hpc]) (by simp)
    cases hl : listAfter r.addr t.childList with
    | nil => simp [CursorOK, listBegin]
    | cons r' l =>
      have hr' : r' ∈ t.childList := mem_of_mem_listAfter (hl ▸ List.mem_cons_self)
      simpa [CursorOK, listBegin] using hr'
  | @execDown r c hpc hc hup =>
    rw [hpc] at huser hcur hheld
    obtain ⟨-, hne, -⟩ := hheld r hcur
    have hgoto := h.goto ht (.execRead r) hcur (by simpa [UserOK] using huser) (by simp)
      (by simp [owned, hpc]) (by simp)
    exact hgoto.goto_sema hne hc (fun _ => ⟨rfl, rfl, rfl, rfl, rfl, rfl⟩) (.inl rfl)
  | @waitDown tid r c hpc hc hup =>
    rw [hpc] at huser hcur hheld
    obtain ⟨-, hne, -⟩ := hheld r hcur
    have hgoto := h.goto ht (.waitRead tid r) hcur (by simpa [UserOK] using huser) (by simp)
      (by simp [owned, hpc]) (by simp)
    exact hgoto.goto_sema hne hc (fun _ => ⟨rfl, rfl, rfl, rfl, rfl, rfl⟩) (.inl rfl)
  | waitRead hpc hc =>
    rw [hpc] at huser hcur
    exact h.goto ht _ hcur (by simpa [UserOK] using huser) (by simp) (by simp [owned, hpc]) (by simp)
  | @waitRemove tid src r status c p hpc hc hp =>
    rw [hpc] at huser hcur hheld
    have hr := hheld r hcur
    obtain ⟨-, -, c', hc', -, hpar, -⟩ := id hr
    obtain rfl : c = c' := Option.some.inj (hc.symm.trans hc')
    -- the element is in the caller's own list, so both changes are to one record
    rw [hpar, St.goto, St.upd_upd_self]
    refine h.upd ht ⟨nodup_listRemove hok.nodup, addr_notMem_listRemove hok.nodup,
      by simpa [UserOK] using huser⟩ rfl rfl (.inl fun hs _ => ⟨hs, by simp⟩) ?_ (by simp)
    intro r' hr'
    have hr'' : r' ∈ r :: listRemove r.addr t.childList := hr'
    rcases List.mem_cons.mp hr'' with rfl | hmem
    · exact hr
    · exact hheld r' (List.mem_of_mem_eraseP hmem)
  | @waitUp tid src r status c hpc hc =>
    rw [hpc] at huser hcur hheld
    have hr := hheld r List.mem_cons_self
    have hgoto := h.goto ht .user trivial (by simpa [UserOK] using huser) (by simp)
      (by simpa [owned, hpc] using fun r' hr' => .inr hr') (by simp)
    refine Inv.note ?_ _
    refine hgoto.goto_sema hr.2.1 hc (fun _ => ⟨rfl, rfl, rfl, rfl, rfl, rfl⟩)
      (.inr ?_)
    refine h.released ht hr.childAt ?_
    intro r' hr' haddr
    exact hcur (haddr ▸ List.mem_map_of_mem (show r' ∈ t.childList from hr'))
  | exitBegin hpc =>
    rw [hpc] at huser hheld
    cases hk : t.childList with
    | nil =>
      exact h.goto ht _ (by simp [CursorOK, listBegin]) (by simpa [UserOK] using huser) (by simp)
        (by simp [owned, listBegin]) (by simp)
    | cons r l =>
      refine h.goto ht _ (by simp [CursorOK, listBegin, hk]) (by simpa [UserOK] using huser) (by simp)
        ?_ (by simp)
      simp [owned, listBegin, listAfter, hk, hpc]
  | exitEnd hpc =>
    rw [hpc] at huser
    exact h.goto ht _ trivial (by simpa [UserOK] using huser) (by simp) (by simp [owned]) (by simp)
  | @exitRelease u r c hpc hc =>
    rw [hpc] at huser hcur hheld
    have hr := hheld r List.mem_cons_self
    have hgoto := h.goto ht (.exitNext u r) hcur (by simpa [UserOK] using huser) (by simp)
      (by simpa [owned, hpc] using fun r' hr' => .inr hr')
      (by rintro u' r' heq; cases heq; exact hr.childAt)
    refine hgoto.goto_sema hr.2.1 hc (fun _ => ⟨rfl, rfl, rfl, rfl, rfl, rfl⟩) (.inr ?_)
    refine h.released ht hr.childAt ?_
    intro r' hr'
    exact addr_ne_of_mem_listAfter hok.nodup hr'
  | @exitNext u r c hpc hc =>
    have hstood := h.stood a t ht u r hpc
    rw [hpc] at huser hcur hheld
    obtain ⟨c', hc', -, hpar⟩ := hstood
    obtain rfl : c = c' := Option.some.inj (hc.symm.trans hc')
    rw [listNext_eq ht hpar]
    cases hl : listAfter r.addr t.childList with
    | nil =>
      exact h.goto ht _ (by simp [CursorOK, listBegin]) (by simpa [UserOK] using huser) (by simp)
        (by simp [owned, listBegin]) (by simp)
    | cons r' l =>
      have hr' : r' ∈ t.childList := mem_of_mem_listAfter (hl ▸ List.mem_cons_self)
      refine h.goto ht _ (by simpa [CursorOK, listBegin] using hr') (by simpa [UserOK] using huser)
        (by simp) ?_ (by simp)
      simp [owned, listBegin, hpc, hl, listAfter_listAfter hok.nodup hl]
  | exitRest hpc =>
    rw [hpc] at huser
    exact h.upd ht ⟨hok.nodup, trivial, by simpa [UserOK] using huser⟩ rfl rfl
      (.inl fun hs _ => ⟨hs, by simp⟩) (by simp [owned]) (by simp)
  | exitUpUser hpc =>
    refine Inv.note ?_ _
    exact h.upd ht ⟨hok.nodup, trivial, fun _ => trivial⟩ rfl rfl
      (.inl fun hs _ => ⟨hs, by simp⟩) (by simp [owned]) (by simp)
  | exitUpKernel hpc =>
    -- only the initial thread ends without waiting for `Destroy_sema`
    have ha : a = initialThread := by
      by_contra hne
      simpa [hpc] using huser hne
    exact h.upd ht ⟨hok.nodup, trivial, fun _ => trivial⟩ rfl rfl
      (.inr (h.not_owned ht (.inr (.inr ha)))) (by simp [owned]) (by simp)
  | exitDown hpc hup =>
    exact h.upd ht ⟨hok.nodup, trivial, fun _ => trivial⟩ rfl rfl
      (.inr (h.not_owned ht (.inl hup))) (by simp [owned]) (by simp)
  | free hpc ha => exact h.free ht hpc ha (hcare.2 t ht hpc)
  | dangling hr hm =>
    obtain ⟨c, hc, -⟩ := h.alive_of_touchesAt ht hr
    rw [hm] at hc
    cases hc
  | foreignTail ho hpc =>
    rcases hpc with ⟨k, tid, hpc⟩ | ⟨u, hpc⟩
    · rw [hpc] at hcur
      exact absurd hcur ho
    · rw [hpc] at hcur
      exact absurd hcur ho
  | orphan hpc hc hp =>
    rw [hpc] at hcur hheld
    obtain ⟨-, -, c', hc', -, hpar, -⟩ := hheld _ hcur
    obtain rfl := Option.some.inj (hc.symm.trans hc')
    rw [hpar, ht] at hp
    cases hp

end Preservation

/-! ### The lifetime law -/

theorem Inv.step {s s' : St} {x : Act} (h : Inv s) (hcare : Careful s x)
    (hs : Process.step s x = some s') : Inv s' := by
  obtain ⟨-, t, ht, htr⟩ := step_trans hs
  exact h.trans ht hcare htr

theorem Inv.reachable {s : St} (h : sys.ReachableVia Careful s) : Inv s := by
  refine h.invariant ?_ (fun _ _ _ hinv hok hs => hinv.step hok hs)
  rintro s rfl
  exact Inv.initial

/-- **The lifetime law.** In every run of careful steps, whatever child's record
`get_child_process`, `process_execute`, `process_wait` or the walk of `process_exit` reads or
writes next is still that child's. -/
theorem alive_of_touches {s : St} (h : sys.ReachableVia Careful s) (x : Act) :
    ∀ r ∈ touches s x, s.Alive r := by
  intro r hr
  unfold touches at hr
  cases ht : s.mem x.actor with
  | none => simp [ht] at hr
  | some t =>
    rw [ht] at hr
    exact (Inv.reachable h).alive_of_touchesAt ht hr

/-- A step that allocates what it asks for and frees no record. -/
def calm (s : St) (x : Act) : Bool :=
  x.op.allocated && decide ((s.mem x.actor).map Thread.pc ≠ some .dying)

theorem careful_of_calm (s : St) (x : Act) (h : calm s x = true) : Careful s x := by
  simp only [calm, Bool.and_eq_true, decide_eq_true_eq] at h
  refine ⟨h.1, fun t ht hpc => absurd ?_ h.2⟩
  rw [ht, Option.map_some, hpc]

/-- `start_process` of the thread at `a` up to user code. -/
def startUser (a : Addr) : List Act :=
  [⟨a, .startFd true⟩, ⟨a, .load true true⟩, ⟨a, .next⟩, ⟨a, .next⟩]

/-- `process_exit` of a childless thread at `a` up to `sema_down (&cur->Destroy_sema)`. -/
def exitUser (a : Addr) (status : ℤ) : List Act :=
  [⟨a, .exit status⟩, ⟨a, .next⟩, ⟨a, .next⟩, ⟨a, .next⟩, ⟨a, .next⟩]

/-- A process at page 2 with a child at page 3, both in user code. -/
def family : List Act :=
  ⟨0, .exec (some 2)⟩ :: startUser 2 ++
    ⟨2, .exec (some 3)⟩ :: startUser 3 ++ [⟨2, .next⟩, ⟨2, .next⟩, ⟨2, .next⟩]

/-- The process at page 2 waits for its child at page 3, which has called `exit (5)`. -/
theorem alive_of_touches_wait : ∃ s,
    sys.runWith calm initial (family ++ exitUser 3 5 ++ [⟨2, .wait 4⟩, ⟨2, .next⟩, ⟨2, .next⟩]) =
      some s ∧ touches s ⟨2, .next⟩ = [⟨3, 4⟩] ∧ ∀ r ∈ touches s ⟨2, .next⟩, s.Alive r := by
  obtain ⟨s, hs, htouch⟩ := System.exists_of_runWith
    (fun s => touches s ⟨2, .next⟩ = [⟨3, 4⟩])
    (show (sys.runWith calm initial
      (family ++ exitUser 3 5 ++ [⟨2, .wait 4⟩, ⟨2, .next⟩, ⟨2, .next⟩])).any _ = true by decide)
  exact ⟨s, hs, htouch,
    alive_of_touches (System.reachableVia_of_runWith careful_of_calm rfl hs) _⟩

/-- The child at page 3 has called `exit (5)`; its parent exits, raises the child's `Destroy_sema`,
and before it takes `list_next` the child runs to its end. -/
def exitRace : List Act :=
  family ++ exitUser 3 5 ++ [⟨2, .exit 0⟩, ⟨2, .next⟩, ⟨2, .next⟩, ⟨3, .next⟩, ⟨3, .next⟩]

/-- A child that gets no `Fd_table` runs to its end before its parent downs `Load_sema`. -/
def tableRefused : List Act :=
  ⟨0, .exec (some 2)⟩ :: startUser 2 ++
    [⟨2, .exec (some 3)⟩, ⟨2, .next⟩, ⟨3, .startFd false⟩, ⟨3, .load true true⟩, ⟨3, .next⟩,
      ⟨3, .next⟩, ⟨3, .next⟩, ⟨3, .next⟩, ⟨3, .next⟩, ⟨3, .next⟩, ⟨3, .next⟩]

/-- The thread at page 2 stands at `pc`, and its next step reads the record of its child of
`tid` 4, which is dead. -/
def ReadsDead (pc : Pc) (s : St) : Prop :=
  (s.mem 2).map Thread.pc = some pc ∧ (step s ⟨2, .next⟩).isSome ∧
    ⟨3, 4⟩ ∈ touches s ⟨2, .next⟩ ∧ s.mem 3 = none

instance (pc : Pc) : DecidablePred (ReadsDead pc) := fun _ => by
  unfold ReadsDead
  infer_instance

/-- Both ways to a read of a dead child's record: `list_next` in `process_exit`, and
`sema_down (&Child->Load_sema)` in `process_execute`. -/
theorem dead_child_touched :
    (∃ s, sys.Reachable s ∧ ReadsDead (.exitNext true ⟨3, 4⟩) s ∧ ¬ s.Alive ⟨3, 4⟩) ∧
    ∃ s, sys.Reachable s ∧ ReadsDead (.execDown ⟨3, 4⟩) s ∧ ¬ s.Alive ⟨3, 4⟩ := by
  have hdead : ∀ {pc s}, ReadsDead pc s → ¬ s.Alive ⟨3, 4⟩ := by
    rintro pc s ⟨-, -, -, hm⟩ ⟨c, hc, -⟩
    rw [hm] at hc
    cases hc
  constructor
  · obtain ⟨s, hs, hr⟩ := System.exists_of_runWith (ReadsDead (.exitNext true ⟨3, 4⟩))
      (show (sys.run initial exitRace).any _ = true by decide)
    exact ⟨s, System.reachable_of_run rfl hs, hr, hdead hr⟩
  · obtain ⟨s, hs, hr⟩ := System.exists_of_runWith (ReadsDead (.execDown ⟨3, 4⟩))
      (show (sys.run initial tableRefused).any _ = true by decide)
    exact ⟨s, System.reachable_of_run rfl hs, hr, hdead hr⟩

end Process
end Pintos
