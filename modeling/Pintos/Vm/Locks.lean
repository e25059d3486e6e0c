import Pintos.Vm.Checked

/-!
# The order of the locks

`Filesys_lock` comes before `Frame_lock`, and `Frame_lock` before `Swap_lock`. A process that comes to a
place where it takes a lock holds only locks that come before it (`Orderly.arrives`), and in front of
`thread_exit` it holds none. So no processes wait for each other in a circle (`lock_discipline`).

`handle_mm_fault` takes `Filesys_lock` to read a page from a file, and a page fault of the kernel itself
may come while it holds this lock. The order rests on what the kernel touches then: the pages that a
system call has checked, which are pinned, and in `construct_stack` the stack, which is not read from a
file.
-/

namespace Pintos
namespace Vm

variable {s s' x : St} {t t' u k : ℕ} {κ : Key} {c : Caller} {e : Entry} {p q : Pc} {ok : Bool} {a : Act}
  {L L' : Lock}

/-- The order of the locks. -/
def Lock.rank : Lock → ℕ
  | .filesys => 0
  | .frame => 1
  | .swap => 2

/-- The lock that the code at a place takes first. -/
def Pc.wants : Pc → Option Lock
  | .start => some .filesys
  | .evictLock _ _ => some .frame
  | p => p.section

/-- `load` is past `setup_stack`, or in it. -/
def Pc.onStack (p : Pc) : Bool :=
  p = .construct || p.caller = some .setupStack || p.caller = some (.fault .construct)

/-- The locks that a process holds at a place, besides the one that it takes there. -/
def Pc.base (p : Pc) : Lock → Bool
  | .filesys => p.onStack || match p with
    | .noDir | .loading | .loadDone _ => true
    | _ => false
  | .frame => p.evicts
  | .swap => false

/-- The process faults in a system call, where it uses what it has checked. -/
def Pc.astray (p : Pc) : Bool := p.caller = some (.fault .call) || p.caller = some (.fault .file)

/-- What a process holds. -/
structure Orderly (s : St) (t : ℕ) : Prop where
  base : ∀ L, (s.pc t).base L = true → s.lock L = some t
  held : ∀ L, s.lock L = some t → (s.pc t).base L = true ∨ (s.pc t).section = some L
  -- The stack of a process in `construct_stack` is not read from a file.
  stack : (s.pc t).onStack = true → s.AnonAt (t, s.userPages - 1) ∧
    ∀ u, (s.pc t).about = some u → u = s.userPages - 1
  astray : (s.pc t).astray = false

/-! ### The order at each place -/

/-- At a place where a lock is taken, only locks before it are held already. -/
theorem Pc.rank_of_base (hw : p.wants = some L) (hb : p.base L' = true)
    (hfill : ∀ c u k, p = .load c u k .fill → p.onStack = false) : L'.rank < L.rank := by
  cases L' with
  | swap => cases hb
  | frame =>
    have hev : p.evicts = true := hb
    cases p with
    | evict c u st v =>
      cases st with
      | swapAlloc => cases hw; decide
      | _ => cases hw
    | _ => first | (cases hev; done) | cases hw
  | filesys =>
    have hne : L ≠ .filesys := by
      rintro rfl
      cases p with
      | load c u k st =>
        cases st with
        | fill =>
          simp only [Pc.base, hfill c u k rfl] at hb
          cases hb
        | _ => simp [Pc.wants, Pc.section] at hw
      | evict c u st v => cases st <;> cases hw
      | _ => first | (cases hb; done) | cases hw
    cases L <;> simp_all [Lock.rank]

/-- The stack is not read from a file. -/
theorem Orderly.fill (h : Orderly s t) (hi : Inv s) (c : Caller) (u k : ℕ)
    (hp : s.pc t = .load c u k .fill) : (s.pc t).onStack = false := by
  by_contra hne
  have hon : (s.pc t).onStack = true := by simpa using hne
  obtain ⟨⟨e, he, ht⟩, hu⟩ := h.stack hon
  obtain rfl : u = s.userPages - 1 := hu u (by rw [hp]; rfl)
  have hph : (s.page (t, s.userPages - 1)).phase = .load k .fill := by
    simp [St.page, St.view, hp, Pc.phase]
  exact ((hi.content (t, s.userPages - 1)).load e k .fill he hph).2 ht

/-- **The order**: a process that wants a lock and does not hold it holds only locks before it. -/
theorem Orderly.order (h : Orderly s t) (hi : Inv s) (hw : (s.pc t).wants = some L)
    (hL : s.lock L ≠ some t) (hL' : s.lock L' = some t) : L'.rank < L.rank := by
  obtain hb | hsec := h.held L' hL'
  · exact Pc.rank_of_base hw hb fun c u k hp => h.fill hi c u k hp
  · have heq : L' = L := by
      cases hp : s.pc t <;> simp_all [Pc.wants, Pc.section]
    rw [heq] at hL'
    exact absurd hL' hL

/-- The process holds none of the locks in front of `thread_exit`. -/
theorem Orderly.threadExit (h : Orderly s t) (hp : s.pc t = .threadExit) : s.lock L ≠ some t := by
  intro hl
  have := h.held L hl
  rw [hp] at this
  cases L <;> simp [Pc.base, Pc.onStack, Pc.caller, Pc.evicts, Pc.section] at this

/-- The process `t` waits for a lock that `t'` holds. -/
def Waits (s : St) (t t' : ℕ) : Prop :=
  ∃ L, (s.pc t).wants = some L ∧ s.lock L = some t' ∧ t' ≠ t

theorem Orderly.trans_waits (h : ∀ t, Orderly s t) (hi : Inv s) (hw : Relation.TransGen (Waits s) t t') :
    ∃ L L', (s.pc t).wants = some L ∧ s.lock L ≠ some t ∧ s.lock L' = some t' ∧
      L.rank ≤ L'.rank := by
  induction hw with
  | single hw =>
    obtain ⟨L, hL, hl, hne⟩ := hw
    refine ⟨L, L, hL, ?_, hl, Nat.le_refl _⟩
    rw [hl]
    exact fun h => hne (Option.some.inj h)
  | tail _ hw ih =>
    obtain ⟨L, L', hL, hl, hl', hle⟩ := ih
    obtain ⟨M, hM, hm, hne⟩ := hw
    have hlt : L'.rank < M.rank := by
      refine (h _).order hi hM ?_ hl'
      rw [hm]
      exact fun h => hne (Option.some.inj h)
    exact ⟨L, M, hL, hl, hm, by omega⟩

/-- **Nobody waits in a circle.** -/
theorem Orderly.acyclic (h : ∀ t, Orderly s t) (hi : Inv s) (t : ℕ) :
    ¬ Relation.TransGen (Waits s) t t := by
  intro hw
  obtain ⟨L, L', hL, hl, hl', hle⟩ := trans_waits h hi hw
  have := (h t).order hi hL hl hl'
  omega

/-! ### What a step takes and releases -/

theorem Caller.back_base (c : Caller) (u : ℕ) (ok : Bool) (hc : c ≠ .fault .file) (L : Lock) :
    (c.back u ok).base L = (Pc.alloc c u).base L := by
  cases c with
  | fault source => cases source <;> cases ok <;> first | exact absurd rfl hc | (cases L <;> rfl)
  | _ => cases ok <;> cases L <;> rfl

/-- Where nothing is released the process keeps what it holds. -/
theorem Next.base (h : Next p q) (hf : p.frees = none) (ha : p.astray = false) (L : Lock) :
    q.base L = p.base L := by
  have hfile : ∀ {c}, p.caller = some c → c ≠ .fault .file := by
    rintro c hc rfl
    simp [Pc.astray, hc] at ha
  cases h with
  | noFrame c u k | freePage c u k => rw [Caller.back_base c u false (hfile rfl)]; cases L <;> rfl
  | loaded c u k => rw [Caller.back_base c u true (hfile rfl)]; cases L <;> rfl
  | noDir | loadDone b | unlock c u k => cases hf
  | unmapped why m i => cases why <;> cases L <;> rfl
  | same => rfl
  | _ => cases L <;> rfl

/-- Where a lock is released the process keeps the others. -/
theorem base_of_frees (hb : body s t ok = some s') (hf : (s.pc t).frees = some L) (L' : Lock) :
    (s.pc t).base L = true ∧ (s.pc t).section = none ∧
      (s'.pc t).base L' = ((s.pc t).base L' && L' ≠ L) := by
  cases hp : s.pc t with simp only [body, hp] at hb hf
  | noDir =>
    cases hb
    cases hf
    rw [St.setPc_self]
    cases L' <;> exact ⟨rfl, rfl, rfl⟩
  | loadDone b =>
    cases hb
    cases hf
    rw [St.setPc_self]
    cases b <;> cases L' <;> exact ⟨rfl, rfl, rfl⟩
  | evictUnlock c u k =>
    cases hb
    cases hf
    rw [St.setPc_self]
    refine ⟨rfl, rfl, ?_⟩
    cases L' with
    | filesys => simp [Pc.base, Pc.onStack, Pc.caller]
    | _ => rfl
  | _ => cases hf

/-- What the process holds at the place it has come to. -/
structure Settled (s : St) (t : ℕ) : Prop where
  base : ∀ L, (s.pc t).base L = true → s.lock L = some t
  held : ∀ L, s.lock L = some t → (s.pc t).base L = true

/-- What the code at a place does to the locks. -/
theorem Orderly.body (h : Orderly s t) (hb : Vm.body s t ok = some s')
    (hsec : (s.pc t).section = none) :
    Settled s' t ∧ ∀ t', t' ≠ t → ∀ L, s'.lock L = some t' ↔ s.lock L = some t' := by
  cases hf : (s.pc t).frees with
  | none =>
    have hlock : s'.lock = s.lock := by rw [lock_body hb, hf]
    have hbase := (body_goes hb).self.base hf h.astray
    refine ⟨⟨fun L hL => ?_, fun L hL => ?_⟩, fun t' _ L => by rw [hlock]⟩
    · rw [hlock]
      exact h.base L (by rw [← hbase, hL])
    · rw [hlock] at hL
      obtain h' | h' := h.held L hL
      · rw [hbase, h']
      · rw [hsec] at h'
        cases h'
  | some L₀ =>
    have hlock : s'.lock = Function.update s.lock L₀ none := by rw [lock_body hb, hf]
    have hfree := base_of_frees hb hf
    have hL₀ : s.lock L₀ = some t := h.base L₀ (hfree L₀).1
    refine ⟨⟨fun L hL => ?_, fun L hL => ?_⟩, fun t' ht L => ?_⟩
    · rw [(hfree L).2.2, Bool.and_eq_true, decide_eq_true_eq] at hL
      rw [hlock, Function.update_of_ne hL.2]
      exact h.base L hL.1
    · by_cases hL' : L = L₀
      · subst hL'
        rw [hlock, Function.update_self] at hL
        cases hL
      · rw [hlock, Function.update_of_ne hL'] at hL
        obtain h' | h' := h.held L hL
        · rw [(hfree L).2.2, h']
          simpa using hL'
        · rw [hsec] at h'
          cases h'
    · by_cases hL' : L = L₀
      · subst hL'
        rw [hlock, Function.update_self, hL₀]
        exact ⟨nofun, fun h => absurd (Option.some.inj h).symm ht⟩
      · rw [hlock, Function.update_of_ne hL']

/-- The process takes the lock `L₀`. -/
theorem setLock_others {L₀ : Lock} (hfree : s.lock L₀ = none) :
    ∀ t', t' ≠ t → ∀ L, (s.setLock L₀ (some t)).lock L = some t' ↔ s.lock L = some t' := by
  intro t' ht L
  by_cases hL : L = L₀
  · subst hL
    simp only [St.setLock, Function.update_self, hfree]
    exact ⟨fun h => absurd (Option.some.inj h).symm ht, by simp⟩
  · simp only [St.setLock, Function.update_of_ne hL]

/-- **The process goes on**: if it comes to another place, it holds what it should hold there. -/
theorem Orderly.go (h : Orderly s t) (hi : Inv s) (hg : Vm.go s t ok = some s') :
    (Settled s' t ∨ s'.pc = s.pc ∧ ∃ L, (s.pc t).section = some L ∧ s.lock L = none ∧
      s'.lock = Function.update s.lock L (some t)) ∧
      ∀ t', t' ≠ t → ∀ L, s'.lock L = some t' ↔ s.lock L = some t' := by
  have hnone : ∀ {L}, s.lock L = some t → (s.pc t).section = none → (s.pc t).base L = true := by
    intro L hL hsec
    obtain h' | h' := h.held L hL
    · exact h'
    · rw [hsec] at h'
      cases h'
  obtain ⟨hp, hfree, rfl⟩ | ⟨c, u, hp, hfree, rfl⟩ | ⟨hsec, hb⟩ | ⟨L₀, x, hsec, hl, hb, rfl⟩ |
    ⟨L₀, hsec, hfree, rfl⟩ := go_cases hg
  · -- `load` takes `Filesys_lock` and keeps it
    have hheld : ∀ L, s.lock L ≠ some t := fun L hL => by
      have := hnone hL (by rw [hp]; rfl)
      rw [hp] at this
      cases L <;> cases this
    have hq : ∃ q, (q = .loading ∨ q = .noDir) ∧
        (if ok then makeDir (s.setLock .filesys (some t)) t
          else (s.setLock .filesys (some t)).setPc t .noDir).pc t = q := by
      split
      · exact ⟨.loading, .inl rfl, St.setPc_self ..⟩
      · exact ⟨.noDir, .inr rfl, St.setPc_self ..⟩
    have hlock : (if ok then makeDir (s.setLock .filesys (some t)) t
        else (s.setLock .filesys (some t)).setPc t .noDir).lock =
          Function.update s.lock .filesys (some t) := by
      split <;> rfl
    refine ⟨.inl ⟨fun L hL => ?_, fun L hL => ?_⟩, fun t' ht L => ?_⟩
    · obtain ⟨q, rfl | rfl, hq⟩ := hq <;> rw [hq] at hL <;> rw [hlock] <;> cases L <;> cases hL <;>
        exact Function.update_self ..
    · rw [hlock] at hL
      cases L with
      | filesys => obtain ⟨q, rfl | rfl, hq⟩ := hq <;> rw [hq] <;> rfl
      | frame => exact absurd (by simpa using hL) (hheld .frame)
      | swap => exact absurd (by simpa using hL) (hheld .swap)
    · rw [hlock]
      exact setLock_others hfree t' ht L
  · -- `frame_evict` takes `Frame_lock`
    have hbase : ∀ L, (Pc.sweep c u 0 s.frameList.length).base L =
        ((Pc.evictLock c u).base L || L = .frame) := by
      intro L
      cases L with
      | filesys => simp [Pc.base, Pc.onStack, Pc.caller]
      | _ => rfl
    refine ⟨.inl ⟨fun L hL => ?_, fun L hL => ?_⟩, fun t' ht L => setLock_others hfree t' ht L⟩
    · rw [St.setPc_self, hbase] at hL
      show Function.update s.lock .frame (some t) L = some t
      by_cases hL' : L = .frame
      · subst hL'
        exact Function.update_self ..
      · rw [Function.update_of_ne hL']
        refine h.base L ?_
        rw [hp]
        simpa [hL'] using hL
    · rw [St.setPc_self, hbase]
      by_cases hL' : L = .frame
      · simp [hL']
      · have hl : s.lock L = some t := by
          simpa [St.setPc, St.setLock, Function.update_of_ne hL'] using hL
        have := hnone hl (by rw [hp]; rfl)
        rw [hp] at this
        simp [this]
  · obtain ⟨hset, hother⟩ := h.body hb hsec
    exact ⟨.inl hset, hother⟩
  · -- the end of a critical section
    have hlock : x.lock = s.lock := by rw [lock_body hb, Pc.frees_of_section hsec]
    have hbase := (body_goes hb).self.base (Pc.frees_of_section hsec) h.astray
    have hwants : (s.pc t).wants = some L₀ := by
      cases hp : s.pc t <;> simp_all [Pc.wants, Pc.section]
    have hL₀ : (s.pc t).base L₀ = false := by
      by_contra hne
      have := Pc.rank_of_base hwants (by simpa using hne) fun c u k hp => h.fill hi c u k hp
      omega
    refine ⟨.inl ⟨fun L hL => ?_, fun L hL => ?_⟩, fun t' ht L => ?_⟩
    · rw [show (x.setLock L₀ none).pc t = x.pc t from rfl, hbase] at hL
      have hne : L ≠ L₀ := by
        rintro rfl
        rw [hL₀] at hL
        cases hL
      simp only [St.setLock, Function.update_of_ne hne, hlock]
      exact h.base L hL
    · have hne : L ≠ L₀ := by
        rintro rfl
        simp [St.setLock] at hL
      rw [show (x.setLock L₀ none).pc t = x.pc t from rfl, hbase]
      simp only [St.setLock, Function.update_of_ne hne, hlock] at hL
      obtain h' | h' := h.held L hL
      · exact h'
      · rw [hsec] at h'
        exact absurd (Option.some.inj h').symm hne
    · by_cases hne : L = L₀
      · subst hne
        simp only [St.setLock, Function.update_self, hl]
        exact ⟨by simp, fun h => absurd (Option.some.inj h).symm ht⟩
      · simp only [St.setLock, Function.update_of_ne hne, hlock]
  · exact ⟨.inr ⟨rfl, L₀, hsec, hfree, rfl⟩, fun t' ht L => setLock_others hfree t' ht L⟩


/-! ### The stack and the checked pages -/

/-- A process in `setup_stack` or `construct_stack` has come there from `setup_stack`. -/
theorem Next.onStack (h : Next p q) (hq : q.onStack = true) :
    p.onStack = true ∧ ∀ u, q.about = some u → p.about = some u := by
  have hback : ∀ {c u ok}, (Caller.back c u ok).onStack = true →
      (c = .setupStack ∨ c = .fault .construct) ∧ (Caller.back c u ok).about = none := by
    intro c u ok hb
    cases c with
    | fault source => cases source <;> cases ok <;> first | exact ⟨.inr rfl, rfl⟩ | cases hb
    | setupStack => cases ok <;> exact ⟨.inl rfl, rfl⟩
    | _ => cases ok <;> cases hb
  cases h with
  | same => exact ⟨hq, fun _ => id⟩
  | noFrame c u k | loaded c u k | freePage c u k =>
    obtain ⟨rfl | rfl, hn⟩ := hback hq <;> exact ⟨rfl, fun v hv => by rw [hn] at hv; cases hv⟩
  | loadDone b => cases b <;> cases hq
  | unmapped why m i => cases why <;> cases hq
  | _ => first | exact ⟨hq, fun _ => id⟩ | cases hq

theorem Next.astray (h : Next p q) (hp : p.astray = false) : q.astray = false := by
  cases h with
  | noFrame c u k | loaded c u k | freePage c u k =>
    cases c with | fault source => cases source <;> rfl | _ => rfl
  | loadDone b => cases b <;> rfl
  | unmapped why m i => cases why <;> rfl
  | _ => exact hp

/-- What a process does there leaves its pages anonymous. -/
theorem anon_body (hb : body s t ok = some s') (hp : (s.pc t).onStack = true) (h : s.AnonAt κ) :
    s'.AnonAt κ := by
  have hd := does_body hb
  generalize s.pc t = p at hd hp
  cases hd with
  | work hw => exact hw.still.anon κ h
  | release => exact h
  | endCall l hand _ hq => obtain rfl | rfl := hq <;> cases hp
  | _ => cases hp

/-- The stack of a process that goes on. -/
theorem Orderly.stack_go (h : Orderly s t) (hg : Vm.go s t ok = some s')
    (hq : (s'.pc t).onStack = true) : s'.AnonAt (t, s'.userPages - 1) ∧
      ∀ u, (s'.pc t).about = some u → u = s'.userPages - 1 := by
  rw [(aside_go hg).userPages]
  have hfrom : ∀ x : St, x.pc t = s'.pc t → Next (s.pc t) (x.pc t) →
      (s.pc t).onStack = true ∧ ∀ u, (s'.pc t).about = some u → u = s.userPages - 1 := by
    intro x hx hn
    rw [hx] at hn
    obtain ⟨hon, habout⟩ := hn.onStack hq
    exact ⟨hon, fun u hu => (h.stack hon).2 u (habout u hu)⟩
  obtain ⟨hp, -, rfl⟩ | ⟨c, u, hp, -, rfl⟩ | ⟨-, hb⟩ | ⟨L, x, -, -, hb, rfl⟩ | ⟨L, -, -, rfl⟩ :=
    go_cases hg
  · split at hq
    · rw [show (makeDir (s.setLock .filesys (some t)) t).pc t = .loading from St.setPc_self ..] at hq
      cases hq
    · rw [St.setPc_self] at hq
      cases hq
  · rw [St.setPc_self] at hq ⊢
    have hst := h.stack (by rw [hp]; exact hq)
    rw [hp] at hst
    exact hst
  · obtain ⟨hon, habout⟩ := hfrom s' rfl (body_goes hb).self
    exact ⟨anon_body hb hon (h.stack hon).1, habout⟩
  · obtain ⟨hon, habout⟩ := hfrom x rfl (body_goes hb).self
    have hanon : x.AnonAt (t, s.userPages - 1) := anon_body hb hon (h.stack hon).1
    exact ⟨hanon, habout⟩
  · exact h.stack hq

/-- **The kernel does not fault on what a system call has checked.** -/
theorem Inv.fault_source {b esp : ℕ} {write : Bool} (hi : Inv s)
    (hs : Vm.step s (.fault t u b write esp ok) = some s') :
    s.accessor t u write = some .user ∨ s.accessor t u write = some .construct := by
  have hallowed : s.allowed (t, u) write = true →
      (s.pte (t, u)).present = true ∧ (write = true → (s.pte (t, u)).writable = true) := by
    intro ha
    unfold St.allowed at ha
    split at ha
    · cases ha
    · next w hw =>
      obtain ⟨⟨⟨e, k, f, -, -, -, -, -, -, -, -, hp, -⟩, -⟩, hwr⟩ := hi.resident (κ := (t, u)) (by
        rw [hw]; exact nofun)
      refine ⟨hp, fun hwrite => (hwr ?_).2⟩
      rw [hwrite] at ha
      rw [hw]
      simpa using ha
  have hsource : ∀ {source}, s.accessor t u write = some source →
      ¬ ((s.pte (t, u)).present = true ∧ (write = true → (s.pte (t, u)).writable = true)) →
      s.accessor t u write = some .user ∨ s.accessor t u write = some .construct := by
    intro source hacc hc
    rw [hacc]
    unfold St.accessor at hacc
    split at hacc
    · split at hacc
      · split at hacc
        · next ha => exact absurd (hallowed ha) hc
        · cases hacc
      · cases hacc
        exact .inl rfl
    · split at hacc
      · next ha => exact absurd (hallowed ha.2) hc
      · cases hacc
    · split at hacc
      · cases hacc
        exact .inr rfl
      · cases hacc
    · cases hacc
  cases step_cases hs with
  | kill _ _ _ _ _ _ source hacc hf => exact hsource hacc hf
  | fault _ _ _ _ _ _ source _ hacc _ hpte | faultGrow _ _ _ _ _ _ source hacc _ hpte =>
    exact hsource hacc (by simp [hpte])

theorem lock_finish (s : St) (t : ℕ) (c : Caller) (u : ℕ) (ok : Bool) :
    (s.finish t c u ok).lock = s.lock := (still_finish ..).lock

theorem lock_growStack (s : St) (t u b esp : ℕ) (ok : Bool) (c : Caller) :
    (growStack s t u b esp ok c).lock = s.lock := by
  unfold growStack
  split
  · rfl
  · exact lock_finish ..

/-- Locks are taken and released by `go` only. -/
theorem lock_step (hs : step s a = some s') (hgo : ∀ t ok, a ≠ .go t ok) : s'.lock = s.lock := by
  cases step_cases hs with
  | go t ok => exact absurd rfl (hgo t ok)
  | kill => exact lock_finish ..
  | faultGrow | pinGrow => exact lock_growStack ..
  | write => exact (calm_writeFile ..).lock
  | _ => rfl

/-! ### Every run -/

/-- Where other actions lead the process keeps what it holds, and it has taken no lock there. -/
theorem Enters.base (h : Enters s a p q) (ha : q.astray = false) (hne : q ≠ p) (L : Lock) :
    p.section = none ∧ q.base L = p.base L := by
  cases h with
  | fault source t u b w esp ok =>
    cases source with
    | call | file => cases ha
    | _ => cases L <;> exact ⟨rfl, rfl⟩
  | kill source u => cases source <;> first | exact absurd rfl hne | (cases L <;> exact ⟨rfl, rfl⟩)
  | _ => cases L <;> exact ⟨rfl, rfl⟩

/-- No other action leads astray. -/
theorem Enters.astray (h : Enters s a p q) (hi : Inv s) (hs : Vm.step s a = some s') :
    q.astray = false := by
  cases h with
  | fault source t u b w esp ok ha hacc =>
    subst ha
    obtain h' | h' := hi.fault_source hs <;> rw [hacc] at h' <;> cases h' <;> rfl
  | kill source u => cases source <;> rfl
  | _ => rfl

theorem anon_addEntry (hn : s.spt (t, u) = none) (h : s.AnonAt κ) : (addEntry s (t, u) e).AnonAt κ := by
  obtain ⟨e', he', ha⟩ := h
  have hne : κ ≠ (t, u) := by
    rintro rfl
    rw [hn] at he'
    cases he'
  exact ⟨e', by simpa [addEntry, Function.update_of_ne hne] using he', ha⟩

theorem anon_growStack {b esp : ℕ} (hn : s.spt (t, u) = none) (h : s.AnonAt κ) :
    (growStack s t u b esp ok c).AnonAt κ := by
  unfold growStack
  split
  · exact anon_addEntry hn h
  · exact (still_finish ..).anon κ h

/-- Only `page_table_destroy` deletes entries otherwise than by `go`. -/
theorem anon_step (hs : step s a = some s') (hgo : ∀ t ok, a ≠ .go t ok)
    (hd : ∀ t u, a ≠ .destroy t u) (h : s.AnonAt κ) : s'.AnonAt κ := by
  cases step_cases hs with
  | go t ok => exact absurd rfl (hgo t ok)
  | destroy t u => exact absurd rfl (hd t u)
  | addFile _ _ _ _ _ _ _ _ hn | setupStack _ _ _ hn => exact anon_addEntry hn h
  | kill => exact (still_finish ..).anon κ h
  | faultGrow _ _ _ _ _ _ _ _ _ _ hn | pinGrow _ _ _ _ _ _ _ _ hn => exact anon_growStack hn h
  | write => exact (calm_writeFile ..).anon κ h
  | _ => exact h

/-- The stack of a process that comes to another place otherwise than by `go`. -/
theorem Orderly.stack_step (h : Orderly s t) (hs : Vm.step s a = some s') (hactor : a.actor = some t)
    (hgo : ∀ t ok, a ≠ .go t ok) (hq : (s'.pc t).onStack = true) :
    s'.AnonAt (t, s.userPages - 1) ∧ ∀ u, (s'.pc t).about = some u → u = s.userPages - 1 := by
  have hanon : (s.pc t).onStack = true → s'.AnonAt (t, s.userPages - 1) := by
    intro hon
    refine anon_step hs hgo ?_ (h.stack hon).1
    rintro t' u rfl
    obtain rfl : t' = t := Option.some.inj hactor
    cases step_cases hs with
    | destroySlot _ _ _ _ hp | destroy _ _ _ hp => rw [hp] at hon; cases hon
  obtain hpc | ⟨q, hpc, henter⟩ := moves_step hs hactor (hgo t)
  · rw [hpc] at hq ⊢
    exact ⟨hanon hq, (h.stack hq).2⟩
  have hpcq : s'.pc t = q := by rw [hpc, Function.update_self]
  rw [hpcq] at hq ⊢
  generalize hp : s.pc t = p at henter
  cases henter with
  | stack t' ha =>
    -- the entry has just been added
    subst ha
    obtain rfl : t' = t := Option.some.inj hactor
    refine ⟨?_, fun u hu => (Option.some.inj hu).symm⟩
    cases step_cases hs with
    | setupStack => exact ⟨anonEntry true, by simp [addEntry, St.setPc], rfl⟩
    | stackFail =>
      rw [St.setPc_self] at hpcq
      cases hpcq
  | fault source t' u b w esp ok ha hacc =>
    subst ha
    obtain rfl : t' = t := Option.some.inj hactor
    cases source with
    | construct =>
      refine ⟨hanon (by rw [hp]; rfl), fun v hv => ?_⟩
      obtain rfl : u = v := Option.some.inj hv
      simp only [St.accessor, hp, Source.back] at hacc
      split at hacc
      · omega
      · cases hacc
    | _ => cases hq
  | kill source u =>
    cases source with
    | construct => exact ⟨hanon (by rw [hp]; rfl), by rintro _ ⟨⟩⟩
    | _ => cases hq
  | _ => cases hq

theorem Orderly.astray_go (h : Orderly s t) (hg : Vm.go s t ok = some s') :
    (s'.pc t).astray = false := by
  obtain ⟨-, -, rfl⟩ | ⟨c, u, hp, -, rfl⟩ | ⟨-, hb⟩ | ⟨L, x, -, -, hb, rfl⟩ | ⟨L, -, -, rfl⟩ :=
    go_cases hg
  · split
    · rw [show (makeDir (s.setLock .filesys (some t)) t).pc t = .loading from St.setPc_self ..]
      rfl
    · rw [St.setPc_self]
      rfl
  · have ha := h.astray
    rw [hp] at ha
    rw [St.setPc_self]
    exact ha
  · exact (body_goes hb).self.astray h.astray
  · exact (body_goes hb).self.astray h.astray
  · exact h.astray

theorem Settled.orderly (h : Settled s t)
    (hstack : (s.pc t).onStack = true → s.AnonAt (t, s.userPages - 1) ∧
      ∀ u, (s.pc t).about = some u → u = s.userPages - 1) (ha : (s.pc t).astray = false) :
    Orderly s t :=
  ⟨h.base, fun L hL => .inl (h.held L hL), hstack, ha⟩

/-- **Where a step of a process leaves it**: at another place, with what it should hold there, or in the
critical section of its place, which it has just entered or in which it uses user memory. -/
theorem Orderly.settles (h : Orderly s t) (hi : Inv s) (hs : Vm.step s a = some s')
    (ha : a.actor = some t) :
    Settled s' t ∨ s'.pc = s.pc ∧ ((∃ L, (s.pc t).section = some L ∧ s.lock L = none ∧
      s'.lock = Function.update s.lock L (some t)) ∨ s'.lock = s.lock ∧ ∀ t ok, a ≠ .go t ok) := by
  by_cases hgo : ∃ t' ok, a = .go t' ok
  · obtain ⟨t', ok, rfl⟩ := hgo
    obtain rfl : t' = t := Option.some.inj ha
    obtain hset | ⟨hpc, L, hL⟩ := (h.go hi (go_of_step hs)).1
    · exact .inl hset
    · exact .inr ⟨hpc, .inl ⟨L, hL⟩⟩
  · have hgo' : ∀ t ok, a ≠ .go t ok := fun t ok he => hgo ⟨t, ok, he⟩
    have hlock := lock_step hs hgo'
    obtain hpc | ⟨q, hpc, henter⟩ := moves_step hs ha (hgo' t)
    · exact .inr ⟨hpc, .inr ⟨hlock, hgo'⟩⟩
    by_cases hne : q = s.pc t
    · exact .inr ⟨by rw [hpc, hne, Function.update_eq_self], .inr ⟨hlock, hgo'⟩⟩
    have hbase := henter.base (henter.astray hi hs) hne
    have hpcq : s'.pc t = q := by rw [hpc, Function.update_self]
    refine .inl ⟨fun L hL => ?_, fun L hL => ?_⟩
    · rw [hlock]
      exact h.base L (by rwa [hpcq, (hbase L).2] at hL)
    · rw [hlock] at hL
      rw [hpcq, (hbase L).2]
      obtain h' | h' := h.held L hL
      · exact h'
      · rw [(hbase L).1] at h'
        cases h'

theorem Orderly.own (h : Orderly s t) (hi : Inv s) (hs : Vm.step s a = some s')
    (ha : a.actor = some t) : Orderly s' t := by
  have hrest : ((s'.pc t).onStack = true → s'.AnonAt (t, s'.userPages - 1) ∧
      ∀ u, (s'.pc t).about = some u → u = s'.userPages - 1) ∧ (s'.pc t).astray = false := by
    by_cases hgo : ∃ t' ok, a = .go t' ok
    · obtain ⟨t', ok, rfl⟩ := hgo
      obtain rfl : t' = t := Option.some.inj ha
      exact ⟨h.stack_go (go_of_step hs), h.astray_go (go_of_step hs)⟩
    · have hgo' : ∀ t ok, a ≠ .go t ok := fun t ok he => hgo ⟨t, ok, he⟩
      rw [(aside_step hs (.inl ha)).userPages]
      refine ⟨h.stack_step hs ha hgo', ?_⟩
      obtain hpc | ⟨q, hpc, henter⟩ := moves_step hs ha (hgo' t)
      · rw [hpc]
        exact h.astray
      · rw [hpc, Function.update_self]
        exact henter.astray hi hs
  obtain hset | ⟨hpc, hl⟩ := h.settles hi hs ha
  · exact hset.orderly hrest.1 hrest.2
  refine ⟨fun L hL => ?_, fun L hL => ?_, hrest.1, hrest.2⟩
  · rw [hpc] at hL
    have hheld := h.base L hL
    obtain ⟨L₀, -, hfree, hlock⟩ | ⟨hlock, -⟩ := hl
    · have hne : L ≠ L₀ := by
        rintro rfl
        rw [hfree] at hheld
        cases hheld
      rw [hlock, Function.update_of_ne hne, hheld]
    · rw [hlock, hheld]
  · rw [hpc]
    obtain ⟨L₀, hsec, -, hlock⟩ | ⟨hlock, -⟩ := hl
    · by_cases hne : L = L₀
      · exact .inr (hne ▸ hsec)
      · rw [hlock, Function.update_of_ne hne] at hL
        exact h.held L hL
    · rw [hlock] at hL
      exact h.held L hL

/-- **A process asks for the locks in order.** After a step at a place where it takes the lock `L` it
holds only locks before `L`, and `L` itself only where it was at this place before: it has taken `L` with
this step, or it has used user memory. -/
theorem Orderly.arrives (h : Orderly s t) (hg : Good s) (hs : Vm.step s a = some s')
    (ha : a.actor = some t) (hw : (s'.pc t).wants = some L) (hL' : s'.lock L' = some t) :
    L'.rank < L.rank ∨
      L' = L ∧ s'.pc t = s.pc t ∧ (s.lock L = none ∨ ∀ ok, a ≠ .go t ok) := by
  have hfill : ∀ c u k, s'.pc t = .load c u k .fill → (s'.pc t).onStack = false := fun c u k hp =>
    (h.own hg.inv hs ha).fill (hg.step hs).inv c u k hp
  have hsection : (s'.pc t).section = some L' → L' = L := by
    intro hsec
    cases hp : s'.pc t <;> simp_all [Pc.wants, Pc.section]
  obtain hset | ⟨hpc, hl⟩ := h.settles hg.inv hs ha
  · exact .inl (Pc.rank_of_base hw (hset.held L' hL') hfill)
  · obtain hb | hsec := (h.own hg.inv hs ha).held L' hL'
    · exact .inl (Pc.rank_of_base hw hb hfill)
    · obtain rfl := hsection hsec
      refine .inr ⟨rfl, by rw [hpc], ?_⟩
      obtain ⟨L₀, hsec', hfree, -⟩ | ⟨-, hgo⟩ := hl
      · rw [hpc, hsec'] at hsec
        cases hsec
        exact .inl hfree
      · exact .inr (hgo t)

/-- What the step of a process leaves to the others. -/
theorem Orderly.other (h : Orderly s t') (hs : Aside s s' t) (ht : t' ≠ t)
    (hlock : ∀ L, s'.lock L = some t' ↔ s.lock L = some t') : Orderly s' t' where
  base L hL := by
    rw [hs.pc t' ht] at hL
    exact (hlock L).2 (h.base L hL)
  held L hL := by
    rw [hs.pc t' ht]
    exact h.held L ((hlock L).1 hL)
  stack hon := by
    rw [hs.pc t' ht] at hon ⊢
    rw [hs.userPages]
    exact ⟨hs.anon _ ht (h.stack hon).1, (h.stack hon).2⟩
  astray := by
    rw [hs.pc t' ht]
    exact h.astray

theorem orderly_step (h : ∀ t, Orderly s t) (hi : Inv s) (hs : Vm.step s a = some s') (t' : ℕ) :
    Orderly s' t' := by
  by_cases ha : a.actor = some t'
  · exact (h t').own hi hs ha
  by_cases hgo : ∃ t ok, a = .go t ok
  · obtain ⟨t, ok, rfl⟩ := hgo
    have ht : t' ≠ t := fun he => ha (congrArg some he.symm)
    exact (h t').other (aside_step hs (.inl rfl)) ht
      (((h t).go hi (go_of_step hs)).2 t' ht)
  · have hlock := lock_step hs fun t ok he => hgo ⟨t, ok, he⟩
    cases hactor : a.actor with
    | none =>
      exact (h t').other (aside_step (t := t' + 1) hs (.inr hactor)) (by omega) fun L => by rw [hlock]
    | some t =>
      have ht : t' ≠ t := fun he => ha (by rw [hactor, he])
      exact (h t').other (aside_step hs (.inl hactor)) ht fun L => by rw [hlock]

theorem orderly_of_reachable (h : sys.Reachable s) (t : ℕ) : Orderly s t := by
  have hall : Good s ∧ ∀ t, Orderly s t := by
    refine h.invariant (P := fun s => Good s ∧ ∀ t, Orderly s t) ?_ ?_
    · intro x hx
      refine ⟨⟨Inv.initial hx, maps_init hx⟩, fun t => ?_⟩
      obtain ⟨_, _, _, _, _, _, rfl⟩ := hx
      exact ⟨fun L hL => (by cases L <;> cases hL), fun L hL => (by cases hL), nofun, rfl⟩
    · exact fun x a y hx _ hs => ⟨hx.1.step hs, orderly_step hx.2 hx.1.inv hs⟩
  exact hall.2 t

/-- **The locks are asked for in order**, none is held in front of `thread_exit`, and no processes wait
for each other in a circle. -/
theorem lock_discipline (h : sys.Reachable s) :
    (∀ a s' t L L', Vm.step s a = some s' → a.actor = some t → (s'.pc t).wants = some L →
        s'.lock L' = some t → L'.rank < L.rank ∨
          L' = L ∧ s'.pc t = s.pc t ∧ (s.lock L = none ∨ ∀ ok, a ≠ .go t ok)) ∧
      (∀ t L, s.pc t = .threadExit → s.lock L ≠ some t) ∧
      ∀ t, ¬ Relation.TransGen (Waits s) t t := by
  have hg := good_of_reachable h
  have ho := orderly_of_reachable h
  refine ⟨fun a s' t L L' hs ha hw hL => ?_, fun t L hp => ?_, fun t => ?_⟩
  · exact (ho t).arrives hg hs ha hw hL
  · exact (ho t).threadExit hp
  · exact Orderly.acyclic ho hg.inv t

/-- The process 1 loads its program while the process 0 has the only frame. -/
def secondActs : List Act :=
  [Act.spawn 0, Act.go 0 true, Act.setupStack 0] ++ List.replicate 10 (Act.go 0 true) ++
    [Act.spawn 1, Act.go 1 true, Act.setupStack 1] ++ List.replicate 6 (Act.go 1 true)

/-- `setup_stack` evicts a page: it holds `Filesys_lock` and `Frame_lock` and asks for `Swap_lock`. -/
theorem lock_discipline_second : ∃ s, sys.Reachable s ∧ s.lock .filesys = some 1 ∧
    s.lock .frame = some 1 ∧ (s.pc 1).wants = some .swap ∧ ¬ Relation.TransGen (Waits s) 1 1 := by
  obtain ⟨s, hr, hf, hl, hw⟩ := System.exists_of_runWith
    (fun s => s.lock .filesys = some 1 ∧ s.lock .frame = some 1 ∧ (s.pc 1).wants = some .swap)
    (show (sys.run (zeroed 4 1 1) secondActs).any _ = true by decide +kernel)
  have hreach := System.reachable_of_run (zeroed_init ..) hr
  exact ⟨s, hreach, hf, hl, hw, (lock_discipline hreach).2.2 1⟩

end Vm
end Pintos
