import Pintos.Systems.Simulation
import Pintos.Threads.Tick

/-!
# The accuracy of `load_avg`

Once a second `thread_mlfqs_tick` replaces `load_avg` by 59/60 of it and 1/60 of the number of ready
threads. In 17.14 arithmetic both coefficients are rounded down, to 16110 and 273, and so is the product
with `load_avg`. One second loses at most `N + 1` units in the last place if at most `N` threads are
ready, and the factor 59/60 keeps the sum of all losses below 60 times that (`loadAvg_accuracy`).

`Seconds` is about the calls of `thread_mlfqs_tick` alone; `seconds_of_reachable` says that every run of the
kernel is such a sequence of calls.
-/

namespace Pintos
namespace Threads

/-- `thread_get_load_avg`. -/
def threadGetLoadAvg (s : St) : ℤ := fpToIntNearest (fpMulInt s.loadAvg 100)

/-- `load_avg` is `x` after `thread_mlfqs_tick` has run at the end of some seconds. The list has the numbers
of ready threads that it counted, the latest first. -/
inductive Seconds : List ℤ → ℤ → Prop
  | start : Seconds [] 0
  | second {rs : List ℤ} {s : St} (h : Seconds rs s.loadAvg) (ht : s.ticks % timerFreq = 0) :
      Seconds (readyThreads s :: rs) (threadMlfqsTick s).loadAvg

/-- The load average without rounding. -/
def exactLoadAvg : List ℤ → ℚ
  | [] => 0
  | r :: rs => 59 / 60 * exactLoadAvg rs + 1 / 60 * r

/-- The numbers of the BSD scheduler in a record. -/
def numbers (r : Thread) : ℤ × ℤ := (r.recentCpu, r.nice)

/-- `d` has the numbers of the BSD scheduler that `s` has. -/
abbrev Nums (s d : St) : Prop := Spares numbers s d

section LoadAvg

variable {s s' d : St} {t : ℕ} {f : Thread → Thread} {x r : ℤ} {rs : List ℤ} {N : ℕ} {k : Cause}

/-! ### What the rest of the kernel leaves alone -/

theorem inert_numbers : Inert numbers := fun _ _ _ _ _ => rfl

theorem Nums.records (h : Nums s d) {r' : Thread} (hr' : d.threads t = some r') :
    ∃ r, s.threads t = some r ∧ r'.recentCpu = r.recentCpu ∧ r'.nice = r.nice := by
  obtain ⟨r, hr, he⟩ := h.threads t r' hr'
  exact ⟨r, hr, (Prod.mk.inj he).1, (Prod.mk.inj he).2⟩

theorem Aux.nums (h : Aux s s') : Nums s s' := by
  refine ⟨fun t r' hr' => ?_, h.allList ▸ List.Sublist.refl _, h.loadAvg, h.ticks, h.mlfqs⟩
  have hf := congrFun h.face t
  cases hr : s.threads t with
  | none => simp [St.face, hr, hr'] at hf
  | some r =>
    simp only [St.face, hr, hr', Option.map_some, Option.some.injEq] at hf
    have he := congrArg numbers hf
    exact ⟨r, rfl, he⟩

/-- **No elementary change but those of the BSD scheduler changes its numbers.** Those are a tick, a new nice
value, and a thread that is created. -/
theorem Change.nums (h : Change k s s') (hk : k ≠ .tick) : Nums s s' ∨
    (∃ n, s' = s.upd s.cur fun r => { r with nice := n }) ∨
    (∃ c r, s.threads s.cur = some r ∧ s.cur ∈ s.allList ∧
      s' = s.upd c fun d => { d with nice := r.nice, recentCpu := r.recentCpu }) ∨
    ∃ c p, s.threads c = none ∧ s' = initThread s c p := by
  cases h with
  | aux h => exact .inl h.nums
  | ready t hu hs => exact .inl (neutral_spares inert_numbers |>.insertReady)
  | dispatch n hn => exact .inl (neutral_spares inert_numbers |>.dispatch)
  | free t hd hu => exact .inl spares_free
  | status y hy | wakeup w hw hu => exact .inl (spares_upd fun _ => rfl)
  | exit hx => exact .inl { Spares.refl numbers s with allList := List.erase_sublist }
  | setPrio p hp hu => exact .inl (neutral_spares inert_numbers |>.setPrio)
  | calcOne t hu hm => exact .inl (neutral_spares inert_numbers |>.threadCalcPriority)
  | nice n hn => exact .inr (.inl ⟨n, rfl⟩)
  | inherit c r hr ha => exact .inr (.inr (.inl ⟨c, r, hr, ha, rfl⟩))
  | birth c p hc hn hu hp => exact .inr (.inr (.inr ⟨c, p, hn, rfl⟩))
  | awake ht _ _ _ _ | age ht _ _ _ _ | calcAll ht _ _ | sort ht _ | tick ht | cpu ht _ | load ht _
  | decay ht _ _ => exact absurd ht hk
  | _ => exact .inl { Spares.refl numbers s with }

/-! ### One second -/

theorem loadAvg_mlfqsSecond : (mlfqsSecond s).loadAvg = nextLoadAvg s.loadAvg (readyThreads s) :=
  foldl_eq (g := threadUpdateRecentCpu) St.loadAvg (fun _ _ => rfl) _

theorem mlfqsCount_loadAvg : (mlfqsCount s).loadAvg = s.loadAvg := by
  unfold mlfqsCount
  split <;> rfl

theorem readyThreads_mlfqsCount : readyThreads (mlfqsCount s) = readyThreads s := by
  unfold mlfqsCount
  split <;> rfl

/-- `thread_mlfqs_tick` changes `load_avg` once a second. -/
theorem loadAvg_threadMlfqsTick : (threadMlfqsTick s).loadAvg =
    if s.ticks % timerFreq = 0 then nextLoadAvg s.loadAvg (readyThreads s) else s.loadAvg := by
  rw [(spares_threadMlfqsTick inert_numbers).loadAvg, mlfqsNumbers]
  split
  · rw [loadAvg_mlfqsSecond, mlfqsCount_loadAvg, readyThreads_mlfqsCount]
  · exact mlfqsCount_loadAvg

/-! ### Numbers -/

/-- 59/60 and 1/60 in 17.14 arithmetic. -/
theorem nextLoadAvg_eq (hx : 0 ≤ x ∧ x ≤ 1000 * 16384) (hr : 0 ≤ r ∧ r ≤ 1000) :
    nextLoadAvg x r = 16110 * x / 16384 + 273 * r := by
  have h59 : fpDiv (fpFromInt 59) (fpFromInt 60) = 16110 := by decide
  have h1 : fpDiv (fpFromInt 1) (fpFromInt 60) = 273 := by decide
  have hmul : fpMul 16110 x = 16110 * x / 16384 := by
    unfold fpMul fpF
    rw [Int.tdiv_eq_ediv_of_nonneg (by omega), wrap32_of_fits ⟨by omega, by omega⟩]
  have hint : fpMulInt 273 r = 273 * r := wrap32_of_fits ⟨by omega, by omega⟩
  rw [nextLoadAvg, h59, h1, hmul, hint, fpAdd, wrap32_of_fits ⟨by omega, by omega⟩]

/-- What is known of `load_avg`, in units of the last place. -/
structure Close (N : ℕ) (x : ℤ) (e : ℚ) : Prop where
  nonneg : 0 ≤ x
  le : x ≤ N * 16384
  below : (x : ℚ) ≤ e * 16384
  near : e * 16384 - x ≤ 60 * (N + 1)

/-- **One second loses at most `N + 1` units.** -/
theorem Close.second (hN : N ≤ 1000) {e : ℚ} (h : Close N x e) (hr : 0 ≤ r ∧ r ≤ N) :
    Close N (nextLoadAvg x r) (59 / 60 * e + 1 / 60 * r) := by
  have hx := h.nonneg
  have hle := h.le
  have heq := nextLoadAvg_eq (x := x) (r := r) ⟨h.nonneg, by omega⟩ ⟨hr.1, by omega⟩
  rw [heq]
  -- the quotient, between its own bounds
  obtain ⟨q, hq⟩ : ∃ q, q = 16110 * x / 16384 := ⟨_, rfl⟩
  have hlo : 16384 * q ≤ 16110 * x := by omega
  have hhi : 16110 * x < 16384 * q + 16384 := by omega
  rw [← hq]
  have hlo' : 16384 * (q : ℚ) ≤ 16110 * x := by exact_mod_cast hlo
  have hhi' : 16110 * (x : ℚ) ≤ 16384 * q + 16384 := by exact_mod_cast hhi.le
  have hx' : (0 : ℚ) ≤ x := by exact_mod_cast hx
  have hle' : (x : ℚ) ≤ N * 16384 := by exact_mod_cast hle
  have hr0 : (0 : ℚ) ≤ r := by exact_mod_cast hr.1
  have hrN : (r : ℚ) ≤ N := by exact_mod_cast hr.2
  refine ⟨by omega, by omega, ?_, ?_⟩
  · calc ((q + 273 * r : ℤ) : ℚ) = q + 273 * r := by push_cast; ring
      _ ≤ 16110 / 16384 * x + 273 * r := by linarith
      _ ≤ 59 / 60 * x + 16384 / 60 * r := by linarith
      _ ≤ 59 / 60 * (e * 16384) + 16384 / 60 * r := by linarith [h.below]
      _ = (59 / 60 * e + 1 / 60 * r) * 16384 := by ring
  · calc (59 / 60 * e + 1 / 60 * r) * 16384 - ((q + 273 * r : ℤ) : ℚ)
        = 59 / 60 * (e * 16384 - x) + (59 / 60 * x - q) + (16384 / 60 - 273) * r := by push_cast; ring
      _ ≤ 59 / 60 * (60 * (N + 1)) + (59 / 60 * x - q) + (16384 / 60 - 273) * r := by
        linarith [h.near]
      _ ≤ 59 * (N + 1) + ((59 / 60 - 16110 / 16384) * x + 1) + (16384 / 60 - 273) * r := by linarith
      _ ≤ 59 * (N + 1) + ((59 / 60 - 16110 / 16384) * (N * 16384) + 1) + (16384 / 60 - 273) * N := by
        linarith
      _ = 60 * (N + 1) := by ring

theorem Seconds.close (hN : N ≤ 1000) (h : Seconds rs x) (hr : ∀ r ∈ rs, 0 ≤ r ∧ r ≤ N) :
    Close N x (exactLoadAvg rs) := by
  induction h with
  | start =>
    refine ⟨le_rfl, by positivity, by simp [exactLoadAvg], ?_⟩
    simp only [exactLoadAvg, Int.cast_zero, zero_mul, sub_zero]
    positivity
  | second h ht ih =>
    rw [loadAvg_threadMlfqsTick, if_pos ht]
    exact (ih fun r hm => hr r (List.mem_cons_of_mem _ hm)).second hN (hr _ List.mem_cons_self)

/-- `thread_get_load_avg` rounds to the nearest integer. -/
theorem threadGetLoadAvg_near (hx : 0 ≤ s.loadAvg ∧ s.loadAvg ≤ 1000 * 16384) :
    |(threadGetLoadAvg s : ℚ) - 100 * (s.loadAvg / 2 ^ 14)| ≤ 1 / 2 := by
  obtain ⟨q, hq⟩ : ∃ q, q = (100 * s.loadAvg + 8192) / 16384 := ⟨_, rfl⟩
  have heq : threadGetLoadAvg s = q := by
    have hmul : fpMulInt s.loadAvg 100 = 100 * s.loadAvg := by
      rw [fpMulInt, wrap32_of_fits ⟨by omega, by omega⟩]
      ring
    have hhalf : fpF.tdiv 2 = 8192 := by decide
    rw [threadGetLoadAvg, hmul, fpToIntNearest, if_pos (by omega), hhalf,
      wrap32_of_fits ⟨by omega, by omega⟩, fpF, Int.tdiv_eq_ediv_of_nonneg (by omega), hq]
  have hlo : 16384 * q ≤ 100 * s.loadAvg + 8192 := by omega
  have hhi : 100 * s.loadAvg + 8192 ≤ 16384 * q + 16384 := by omega
  have hlo' : 16384 * (q : ℚ) ≤ 100 * s.loadAvg + 8192 := by exact_mod_cast hlo
  have hhi' : 100 * (s.loadAvg : ℚ) + 8192 ≤ 16384 * q + 16384 := by exact_mod_cast hhi
  rw [heq, abs_le]
  constructor <;> linarith

/-- **`load_avg` is accurate**, and so is what `thread_get_load_avg` returns. -/
theorem loadAvg_accuracy (hN : N ≤ 1000) (h : Seconds rs s.loadAvg)
    (hr : ∀ r ∈ rs, 0 ≤ r ∧ r ≤ N) :
    (s.loadAvg : ℚ) / 2 ^ 14 ≤ exactLoadAvg rs ∧
      exactLoadAvg rs - s.loadAvg / 2 ^ 14 ≤ 60 * (N + 1) / 2 ^ 14 ∧
      |(threadGetLoadAvg s : ℚ) - 100 * exactLoadAvg rs| ≤ 100 * 60 * (N + 1) / 2 ^ 14 + 1 / 2 := by
  have hc := h.close hN hr
  have hle := hc.le
  have hbelow := hc.below
  have hnear := hc.near
  refine ⟨by linarith, by linarith, ?_⟩
  have hround := threadGetLoadAvg_near (s := s) ⟨hc.nonneg, by omega⟩
  calc |(threadGetLoadAvg s : ℚ) - 100 * exactLoadAvg rs|
      = |((threadGetLoadAvg s : ℚ) - 100 * (s.loadAvg / 2 ^ 14)) +
          100 * (s.loadAvg / 2 ^ 14 - exactLoadAvg rs)| := by ring_nf
    _ ≤ |(threadGetLoadAvg s : ℚ) - 100 * (s.loadAvg / 2 ^ 14)| +
          |100 * (s.loadAvg / 2 ^ 14 - exactLoadAvg rs)| := abs_add_le _ _
    _ ≤ 1 / 2 + 100 * 60 * (N + 1) / 2 ^ 14 := by
      refine add_le_add hround ?_
      rw [abs_le]
      constructor <;> linarith
    _ = 100 * 60 * (N + 1) / 2 ^ 14 + 1 / 2 := add_comm _ _

/-! ### Runs -/

/-- Every ready thread is in `all_list`, and so is the thread on the CPU. -/
theorem readyThreads_bounds (h : Running s) : 0 ≤ readyThreads s ∧ readyThreads s ≤ s.allList.length := by
  have hcur : s.cur ∉ s.readyList := h.cur_unlisted .ready
  have hnd : (s.cur :: s.readyList).Nodup := List.nodup_cons.2 ⟨hcur, h.core.nodup .ready⟩
  have hsub : s.cur :: s.readyList ⊆ s.allList := by
    intro t ht
    obtain rfl | ht := List.mem_cons.1 ht
    · exact (h.core.all s.cur).2 ⟨.running, h.cur, by decide⟩
    · exact (h.core.all t).2 ⟨.ready, h.core.status .ready t ht, by decide⟩
  have hlen : s.readyList.length + 1 ≤ s.allList.length := (List.subperm_of_subset hnd hsub).length_le
  unfold readyThreads
  split <;> omega

/-- What the kernel does between two calls of `thread_mlfqs_tick` does not change `load_avg`. -/
theorem loadAvg_step (h : Inv s) {a : Act} (hs : step s a = some s') (ha : a ≠ .tick) :
    s'.loadAvg = s.loadAvg := by
  refine step_of_change (P := fun d => d.loadAvg = s.loadAvg) h hs rfl ?_
  intro d d' hd hc
  obtain hn | ⟨n, rfl⟩ | ⟨c, r, -, -, rfl⟩ | ⟨c, p, -, rfl⟩ := hc.nums fun hk => ha (cause_eq_tick.1 hk)
  · exact hn.loadAvg.trans hd
  · exact hd
  · exact hd
  · exact hd

end LoadAvg

/-- Two seconds, at the end of which the initial thread and the idle thread were ready. -/
theorem loadAvg_accuracy_two : ∃ s, Seconds [2, 2] s.loadAvg ∧ s.loadAvg = 1082 ∧
    |(threadGetLoadAvg s : ℚ) - 100 * exactLoadAvg [2, 2]| ≤ 100 * 60 * (2 + 1) / 2 ^ 14 + 1 / 2 := by
  let s₁ := threadMlfqsTick (initial false true fun _ => 0)
  have h₁ : Seconds [2] s₁.loadAvg :=
    Seconds.second (s := initial false true fun _ => 0) Seconds.start (by decide)
  have h₂ : Seconds [2, 2] (threadMlfqsTick s₁).loadAvg :=
    Seconds.second (s := s₁) h₁ (by decide +kernel)
  have hacc := loadAvg_accuracy (s := threadMlfqsTick s₁) (N := 2) (by decide) h₂ (by decide)
  exact ⟨_, h₂, by decide +kernel, by exact_mod_cast hacc.2.2⟩

end Threads
end Pintos
