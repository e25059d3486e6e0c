import Pintos.Threads.RecentCpu

/-!
# What `thread_get_recent_cpu` returns

`thread_get_recent_cpu` multiplies `recent_cpu` by 100 before it drops the fraction, and the product has to
fit into an `int`. So it returns the right value just as long as `recent_cpu` is below about 1310
(`threadGetRecentCpu_eq_ceil`), a hundred times less than what the field itself can hold.

`recent_cpu` gets there. If 40 threads with the nice value 20 do nothing but run, `load_avg` tends to 40 and
the `recent_cpu` of each of them to at least `20 (2 * 40 + 1)`, whoever runs when (`Crowd`, `Loaded`). After 190
seconds the product overflows (`threadGetRecentCpu_wrong`).
-/

namespace Pintos
namespace Threads

/-- `thread_get_recent_cpu`. -/
def threadGetRecentCpu (s : St) : ℤ :=
  match s.threads s.cur with
  | some r => fpToIntUp (fpMulInt r.recentCpu 100)
  | none => 0

/-! ### The range of the accessor -/

section Accessor

variable {x q : ℤ}

theorem wrap32_spec (x : ℤ) : Fits (wrap32 x) ∧ ∃ k, wrap32 x = x + 4294967296 * k := by
  refine ⟨fits_wrap32 x, -((x + 2147483648) / 4294967296), ?_⟩
  unfold wrap32
  rw [Int.bmod_def]
  split <;> omega

/-- Division truncates toward zero. -/
theorem tdiv_fpF_spec (x : ℤ) : 0 ≤ x ∧ 16384 * x.tdiv 16384 ≤ x ∧ x < 16384 * x.tdiv 16384 + 16384 ∨
    x < 0 ∧ x ≤ 16384 * x.tdiv 16384 ∧ 16384 * x.tdiv 16384 - 16384 < x := by
  have hsign : (16384 : ℤ).sign = 1 := rfl
  rw [Int.tdiv_eq_ediv, hsign]
  split
  · next h =>
    obtain h | h := h
    · omega
    · have := Int.emod_eq_zero_of_dvd h
      omega
  · next h =>
    have hmod : x % 16384 ≠ 0 := fun hm => h (.inr (Int.dvd_of_emod_eq_zero hm))
    omega

theorem ceil_div_eq_iff : ⌈(x : ℚ) / 2 ^ 14⌉ = q ↔ 16384 * q - 16384 < x ∧ x ≤ 16384 * q := by
  rw [Int.ceil_eq_iff, lt_div_iff₀ (by positivity), div_le_iff₀ (by positivity)]
  constructor
  · rintro ⟨h1, h2⟩
    have h1' : (q - 1) * 2 ^ 14 < x := by exact_mod_cast h1
    have h2' : x ≤ q * 2 ^ 14 := by exact_mod_cast h2
    omega
  · rintro ⟨h1, h2⟩
    have h1' : (q - 1) * 2 ^ 14 < x := by omega
    have h2' : x ≤ q * 2 ^ 14 := by omega
    exact ⟨by exact_mod_cast h1', by exact_mod_cast h2'⟩

/-- `fp_to_int_up` of the product with 100 is its ceiling exactly where nothing overflows. -/
theorem fpToIntUp_eq_ceil (c : ℤ) : fpToIntUp (fpMulInt c 100) = ⌈((100 * c : ℤ) : ℚ) / 2 ^ 14⌉ ↔
    -2 ^ 31 ≤ 100 * c ∧ 100 * c + 2 ^ 14 - 1 < 2 ^ 31 := by
  rw [eq_comm, ceil_div_eq_iff, fpToIntUp, fpMulInt, fpF]
  obtain ⟨hw, k, hk⟩ := wrap32_spec (c * 100)
  generalize wrap32 (c * 100) = w at hw hk ⊢
  obtain ⟨hu, i, hi⟩ := wrap32_spec (w + 16384)
  generalize wrap32 (w + 16384) = u at hu hi ⊢
  obtain ⟨hv, j, hj⟩ := wrap32_spec (u - 1)
  generalize wrap32 (u - 1) = v at hv hj ⊢
  unfold Fits at hw hu hv
  split
  · next hpos =>
    have hq := tdiv_fpF_spec v
    generalize v.tdiv 16384 = q at hq ⊢
    constructor
    · rintro ⟨h1, h2⟩
      have hle : q ≤ 131071 := by omega
      by_contra hout
      -- the product is negative, and only the least quotient could be right
      have hlow : 100 * c < -2147483648 := by omega
      have hq' : q = -131072 := by omega
      have hv' : v = -2147483648 := by omega
      have hk' : k = 1 := by omega
      omega
    · rintro ⟨h1, h2⟩
      have hk0 : k = 0 := by omega
      have hi0 : i = 0 ∨ i = -1 := by omega
      have hij : i + j = 0 := by omega
      omega
  · next hneg =>
    have hq := tdiv_fpF_spec w
    generalize w.tdiv 16384 = q at hq ⊢
    constructor
    · rintro ⟨h1, h2⟩
      by_contra hout
      have hq' : q = -131072 ∨ 0 < 100 * c := by omega
      have hw' : w = -2147483648 := by omega
      omega
    · rintro ⟨h1, h2⟩
      have hk0 : k = 0 := by omega
      omega

end Accessor

/-- **`thread_get_recent_cpu` returns 100 times `recent_cpu`, rounded up**, exactly if the product and the
sum with which it rounds fit into an `int`. -/
theorem threadGetRecentCpu_eq_ceil {s : St} {r : Thread} (hr : s.threads s.cur = some r) :
    threadGetRecentCpu s = ⌈((100 * r.recentCpu : ℤ) : ℚ) / 2 ^ 14⌉ ↔
      -2 ^ 31 ≤ 100 * r.recentCpu ∧ 100 * r.recentCpu + 2 ^ 14 - 1 < 2 ^ 31 := by
  rw [threadGetRecentCpu, hr]
  exact fpToIntUp_eq_ceil r.recentCpu

/-! ### Many threads that do nothing but run -/

/-- `m` threads besides the idle thread, none of which waits for anything, with the nice value 20. -/
structure Crowd (m : ℕ) (s : St) : Prop where
  inv : Inv s
  mlfqs : s.mlfqs = true
  idle : s.idleThread = some idlePage
  cur : s.cur ≠ idlePage
  len : s.allList.length = m + 1
  awake : ∀ t ∈ s.allList, t ≠ idlePage → s.status t ≠ some .blocked
  nice : ∀ t ∈ s.allList, ∀ r, s.threads t = some r → r.nice = if t = idlePage then 0 else 20
  -- a thread that has not run yet has to turn on interrupts
  conts : ∀ t ∈ s.allList, t ≠ idlePage → ∀ r, s.threads t = some r →
    r.cont = [.kernelThread] ∨ r.cont = [] ∧ r.level = true

/-- `load_avg` after some seconds with `m` ready threads, and what the `recent_cpu` of a thread with the nice
value 20 has then reached without ever running. -/
def crowdSeq (m : ℤ) : ℕ → ℤ × ℤ
  | 0 => (0, 0)
  | j + 1 =>
    let loadAvg := nextLoadAvg (crowdSeq m j).1 m
    (loadAvg, decay loadAvg (crowdSeq m j).2 + 20 * 16384)

/-- The numbers of the crowd after `j` seconds. -/
structure Loaded (m j : ℕ) (s : St) : Prop where
  load : s.loadAvg = (crowdSeq m j).1
  cpu : ∀ t ∈ s.allList, t ≠ idlePage → ∀ r, s.threads t = some r → (crowdSeq m j).2 ≤ r.recentCpu

/-- What a record has that the timer interrupt leaves alone. -/
def posture (r : Thread) : ℤ × Bool × List Stmt := (r.nice, r.level, r.cont)

section Crowd

variable {m j : ℕ} {s s' d : St} {t : ℕ}

theorem inert_posture : Inert posture := fun _ _ _ _ _ => rfl

/-- All threads but the idle thread are ready. -/
theorem readyThreads_of_awake (h : Running s) (hi : s.idleThread = some idlePage) (hc : s.cur ≠ idlePage)
    (hlen : s.allList.length = m + 1)
    (hawake : ∀ t ∈ s.allList, t ≠ idlePage → s.status t ≠ some .blocked) : readyThreads s = m := by
  have hcur : s.cur ∉ s.readyList := h.cur_unlisted .ready
  have hidle : idlePage ∉ s.readyList := (h.idle _ hi).2 .ready
  have hnd : (idlePage :: s.cur :: s.readyList).Nodup := by
    refine List.nodup_cons.2 ⟨?_, List.nodup_cons.2 ⟨hcur, h.core.nodup .ready⟩⟩
    simp [hidle, Ne.symm hc]
  have hperm : (idlePage :: s.cur :: s.readyList).Perm s.allList := by
    refine (List.perm_ext_iff_of_nodup hnd h.core.all_nodup).2 fun t => ?_
    rw [h.core.all t, List.mem_cons, List.mem_cons]
    constructor
    · rintro (rfl | rfl | ht)
      · exact h.idle_alive
      · exact ⟨.running, h.cur, by decide⟩
      · exact ⟨.ready, h.core.status .ready t ht, by decide⟩
    · rintro ⟨x, hx, hxd⟩
      by_cases hti : t = idlePage
      · exact .inl hti
      · refine .inr ?_
        cases x with
        | running => exact .inl (h.running t hx)
        | ready => exact .inr (h.ready t hx fun he => hti (by rw [hi] at he; exact (Option.some.inj he).symm))
        | blocked => exact absurd hx (hawake t ((h.core.all t).2 ⟨.blocked, hx, by decide⟩) hti)
        | dying => exact absurd rfl hxd
  have hcount := hperm.length_eq
  rw [List.length_cons, List.length_cons, hlen] at hcount
  have hne : s.idleThread ≠ some s.cur := by
    rw [hi]
    exact fun he => hc (Option.some.inj he).symm
  rw [readyThreads, if_neg hne]
  omega

theorem Crowd.tame (h : Crowd m s) (hm : m < 500) : Tame 500 s := by
  refine ⟨h.mlfqs, by rw [h.len]; omega, fun t ht r hr => ?_⟩
  rw [h.nice t ht r hr]
  split <;> omega

/-! ### The thread on the CPU -/

theorem cur_wakeUpLoop (l : List ℕ) : ∀ {s : St}, (wakeUpLoop l s).cur = s.cur := by
  have hub : ∀ (s : St) t, (threadUnblock s t).cur = s.cur := by
    intro s t
    unfold threadUnblock
    split <;> rfl
  induction l with
  | nil => exact rfl
  | cons t l ih =>
    intro s
    rw [wakeUpLoop]
    split
    · rfl
    · rw [ih, hub]

theorem cur_beforeMlfqsTick : (beforeMlfqsTick s).cur = s.cur := by
  have hage : ∀ d : St, (if d.aging then threadAging d else d).cur = d.cur := by
    intro d
    split
    · exact same_threadAging.cur
    · rfl
  have hcount : ∀ d : St, (if timeSlice ≤ d.threadTicks then { d with yieldOnReturn := true } else d).cur =
      d.cur := by
    intro d
    split <;> rfl
  exact (hage _).trans (same_checkPreemptIntr.cur.trans ((cur_wakeUpLoop _).trans (hcount _)))

theorem cur_threadMlfqsTick : (threadMlfqsTick s).cur = s.cur := by
  have hsort : (mlfqsSort (mlfqsNumbers s)).cur = s.cur :=
    same_foreach_threadUpdatePriority.cur.trans same_mlfqsNumbers.cur
  rw [threadMlfqsTick_eq]
  split
  · rw [same_checkPreemptIntr.cur, hsort]
  · exact same_mlfqsNumbers.cur

/-- Whoever yields is ready itself, so that the idle thread is not chosen. -/
theorem threadYield_cur_ne (h : Running s) (hi : s.idleThread = some idlePage) (hc : s.cur ≠ idlePage) :
    (threadYield s).cur ≠ idlePage := by
  have hne : s.idleThread ≠ some s.cur := by
    rw [hi]
    exact fun he => hc (Option.some.inj he).symm
  have hok := h.threadYield.1.ok
  rw [threadYield, if_neg hne] at hok ⊢
  obtain ⟨n, hn, hs⟩ := schedule_cases hok
  have hcur : (schedule (insertReady s s.cur)).cur = n := by
    obtain hs | ⟨-, hs, -⟩ := hs
    · rw [hs]
      rfl
    · rw [hs]
      rfl
  have hmem : s.cur ∈ (insertReady s s.cur).readyList := mem_listInsertOrdered.2 (.inl rfl)
  have hn' : n ∈ (insertReady s s.cur).readyList := by
    unfold nextThreadToRun at hn
    cases hl : (insertReady s s.cur).readyList with
    | nil =>
      rw [hl] at hmem
      cases hmem
    | cons t l =>
      simp only [hl, Option.some.injEq] at hn
      exact hn ▸ List.mem_cons_self
  rw [hcur]
  rintro rfl
  obtain he | he := mem_listInsertOrdered.1 hn'
  · exact hc he.symm
  · exact (h.idle _ hi).2 .ready he

/-! ### One tick -/

/-- **A tick leaves the crowd a crowd.** -/
theorem Crowd.tick (h : Crowd m s) (hs : step s .tick = some s') : Crowd m s' := by
  have hinv := h.inv.step hs
  have hall := allList_tick h.inv hs
  obtain rfl := eq_tick_of_step h.inv hs
  obtain ⟨-, hk⟩ := Running.intrHandler (s := s) (f := timerInterrupt)
    fun d hd => (h.inv.running.same hd).timerInterrupt
  obtain ⟨hrun, hkeep⟩ := running_beforeMlfqsTick h.inv.running
  obtain ⟨hrun', hkeep'⟩ := hrun.threadMlfqsTick
  refine ⟨hinv, hk.mlfqs.trans h.mlfqs, hk.idleThread.trans h.idle, ?_, hall ▸ h.len, fun t ht hne hb => ?_,
    fun t ht r' hr' => ?_, fun t ht hne r' hr' => ?_⟩
  · have hc : (threadMlfqsTick (beforeMlfqsTick s)).cur ≠ idlePage := by
      rw [cur_threadMlfqsTick, cur_beforeMlfqsTick]
      exact h.cur
    have hi : (threadMlfqsTick (beforeMlfqsTick s)).idleThread = some idlePage :=
      (hkeep'.idleThread.trans hkeep.idleThread).trans h.idle
    rw [tick_eq, if_pos h.mlfqs]
    dsimp only
    split
    · exact threadYield_cur_ne hrun' hi hc
    · exact hc
  · exact h.awake t (hall ▸ ht) hne (hk.blocked t hb).1
  · obtain ⟨r, hr, he⟩ := threads_tick inert_posture (fun _ _ => rfl) hr'
    have hn : r'.nice = r.nice := congrArg Prod.fst he
    exact hn.trans (h.nice t (hall ▸ ht) r hr)
  · obtain ⟨r, hr, he⟩ := threads_tick inert_posture (fun _ _ => rfl) hr'
    have hl : r'.level = r.level := congrArg (fun q => q.2.1) he
    have hc : r'.cont = r.cont := congrArg (fun q => q.2.2) he
    rw [hl, hc]
    exact h.conts t (hall ▸ ht) hne r hr

/-! ### One second -/

/-- The loop of the second decays each `recent_cpu` once. -/
theorem foldl_threadUpdateRecentCpu {l : List ℕ} (hnd : l.Nodup) (ht : t ∈ l) :
    (l.foldl threadUpdateRecentCpu s).threads t = (s.threads t).map fun r =>
      { r with recentCpu := nextRecentCpu s.loadAvg r.recentCpu r.nice } := by
  have hother : ∀ (k : List ℕ) (d : St), t ∉ k →
      (k.foldl threadUpdateRecentCpu d).threads t = d.threads t := by
    intro k
    induction k with
    | nil => exact fun _ _ => rfl
    | cons u k ih =>
      intro d hk
      obtain ⟨hu, hk⟩ := not_or.1 (List.mem_cons.not.1 hk)
      rw [List.foldl_cons, ih _ hk]
      exact Function.update_of_ne hu ..
  induction l generalizing s with
  | nil => cases ht
  | cons u l ih =>
    obtain ⟨hul, hnd⟩ := List.nodup_cons.1 hnd
    rw [List.foldl_cons]
    by_cases htu : t = u
    · subst htu
      rw [hother l _ hul]
      exact Function.update_self ..
    · rw [ih hnd ((List.mem_cons.1 ht).resolve_left htu)]
      have hsame : (threadUpdateRecentCpu s u).threads t = s.threads t := Function.update_of_ne htu ..
      rw [hsame]
      rfl

theorem decay_mono {x a b : ℤ} (hx : 0 ≤ x) (hab : a ≤ b) : decay x a ≤ decay x b := by
  have hk : 0 ≤ x * 2 * 16384 / (x * 2 + 16384) := Int.ediv_nonneg (by omega) (by omega)
  exact Int.tdiv_le_tdiv (by decide) (mul_le_mul_of_nonneg_left hab hk)

theorem mlfqsCount_recentCpu_le {n : ℕ} (hn : n ≤ 500) (hw : Within n s) {r' : Thread}
    (hr' : (mlfqsCount s).threads t = some r') :
    ∃ r, s.threads t = some r ∧ r.recentCpu ≤ r'.recentCpu ∧ r'.nice = r.nice := by
  unfold mlfqsCount at hr'
  split at hr'
  · exact ⟨r', hr', le_rfl, rfl⟩
  · obtain ⟨r, hr, ⟨rfl, -⟩ | ⟨rfl, rfl⟩⟩ := threads_upd hr'
    · exact ⟨r', hr, le_rfl, rfl⟩
    · refine ⟨r, hr, ?_, rfl⟩
      have hlow := hw.low _ r hr
      have hhigh := hw.high _ r hr
      have hadd : fpAddInt? r.recentCpu 1 = some (r.recentCpu + 1 * 16384) :=
        fpAddInt?_of_fits ⟨by omega, by omega⟩ ⟨by omega, by omega⟩
      show r.recentCpu ≤ fpAddInt r.recentCpu 1
      rw [fpAddInt_of_checked hadd]
      omega

theorem mlfqsSecond_threads (hnd : s.allList.Nodup) (ht : t ∈ s.allList) :
    (mlfqsSecond s).threads t = (s.threads t).map fun r => { r with
      recentCpu := nextRecentCpu (nextLoadAvg s.loadAvg (readyThreads s)) r.recentCpu r.nice } :=
  foldl_threadUpdateRecentCpu (s := { s with loadAvg := nextLoadAvg s.loadAvg (readyThreads s) }) hnd ht

/-- Who has more `recent_cpu` before the second is over has more after it. -/
theorem nextRecentCpu_lower {n : ℕ} {x a b : ℤ} (hn : n ≤ 500) (hx : 0 ≤ x ∧ x ≤ n * 16384) (hab : a ≤ b)
    (hb : -(40 * n + 20) * 16384 ≤ b ∧ b ≤ (240 * n + 120) * 16384) :
    decay x a + 20 * 16384 ≤ nextRecentCpu x b 20 := by
  obtain ⟨z, hz, he, -, -⟩ := nextRecentCpu?_bounds (m := 20) hn hx hb (by decide)
  rw [nextRecentCpu_of_checked hz, he]
  have hmono := decay_mono hx.1 hab
  omega

/-- The list of all threads is the same in front of `thread_mlfqs_tick`. -/
theorem allList_beforeMlfqsTick (h : Inv s) (hs : step s .tick = some s') (hm : s.mlfqs = true) :
    (beforeMlfqsTick s).allList = s.allList := by
  have hall := allList_tick h hs
  obtain rfl := eq_tick_of_step h hs
  have h₁ := (spares_timerInterrupt (s := s) inert_numbers).allList
  rw [if_pos hm] at h₁
  have h₂ := (spares_threadMlfqsTick (s := beforeMlfqsTick s) inert_numbers).allList
  rw [same_mlfqsNumbers.allList] at h₂
  have h₃ := (spares_beforeMlfqsTick (s := s) inert_numbers).allList
  refine h₃.eq_of_length (le_antisymm h₃.length_le ?_)
  show s.allList.length ≤ _
  rw [← hall]
  exact (h₁.trans h₂).length_le

theorem Crowd.readyThreads_eq (h : Crowd m s) (hs : step s .tick = some s') :
    readyThreads (beforeMlfqsTick s) = m := by
  obtain ⟨hrun, hk⟩ := running_beforeMlfqsTick h.inv.running
  have hall := allList_beforeMlfqsTick h.inv hs h.mlfqs
  refine readyThreads_of_awake hrun (hk.idleThread.trans h.idle) ?_ (hall ▸ h.len) fun t ht hne hb => ?_
  · rw [cur_beforeMlfqsTick]
    exact h.cur
  · exact h.awake t (hall ▸ ht) hne (hk.blocked t hb).1

/-- The load of the crowd, in front of `thread_mlfqs_tick`. -/
theorem Loaded.before (hl : Loaded m j s) (hm : m < 500) (h : Crowd m s) (hb : Bsd 500 s)
    (hs : step s .tick = some s') :
    nextLoadAvg (beforeMlfqsTick s).loadAvg (readyThreads (beforeMlfqsTick s)) = (crowdSeq m (j + 1)).1 ∧
      0 ≤ (crowdSeq m (j + 1)).1 ∧ (crowdSeq m (j + 1)).1 ≤ (500 : ℕ) * 16384 := by
  have hload : (beforeMlfqsTick s).loadAvg = (crowdSeq m j).1 :=
    (spares_beforeMlfqsTick inert_numbers).loadAvg.trans hl.load
  obtain ⟨x, hx, hx0, hx1⟩ := nextLoadAvg?_bounds (r := (m : ℤ)) le_rfl hb.before.1.load ⟨by omega, by omega⟩
  have hnext : nextLoadAvg (beforeMlfqsTick s).loadAvg m = (crowdSeq m (j + 1)).1 := by rw [hload, crowdSeq]
  rw [h.readyThreads_eq hs, ← hnext]
  exact ⟨rfl, nextLoadAvg_of_checked hx ▸ ⟨hx0, hx1⟩⟩

/-- What a thread of the crowd has of `recent_cpu` when the tick is counted. -/
theorem Loaded.count (hl : Loaded m j s) (h : Crowd m s) (hb : Bsd 500 s) (ht : t ∈ s.allList)
    (hne : t ≠ idlePage) {r' : Thread} (hr' : (mlfqsCount (beforeMlfqsTick s)).threads t = some r') :
    (crowdSeq m j).2 ≤ r'.recentCpu ∧ r'.nice = 20 := by
  obtain ⟨r₁, hr₁, hle, hn₁⟩ := mlfqsCount_recentCpu_le le_rfl hb.before.1 hr'
  obtain ⟨r, hr, hc, hn⟩ := Nums.records (spares_beforeMlfqsTick inert_numbers) hr₁
  have hcpu := hl.cpu t ht hne r hr
  have hnice := h.nice t ht r hr
  rw [if_neg hne] at hnice
  exact ⟨by omega, by omega⟩

/-- **The numbers of the crowd after one more tick.** -/
theorem Loaded.tick (hl : Loaded m j s) (hm : m < 500) (h : Crowd m s) (hb : Bsd 500 s)
    (hs : step s .tick = some s') : s'.ticks = s.ticks + 1 ∧
      Loaded m (if (s.ticks + 1) % 100 = 0 then j + 1 else j) s' := by
  obtain ⟨hnext, hx⟩ := hl.before hm h hb hs
  have hall := allList_tick h.inv hs
  have hall' := allList_beforeMlfqsTick h.inv hs h.mlfqs
  obtain rfl := eq_tick_of_step h.inv hs
  obtain ⟨hrun, -⟩ := running_beforeMlfqsTick h.inv.running
  have hbefore := spares_beforeMlfqsTick (s := s) inert_numbers
  have hafter := spares_timerInterrupt (s := s) inert_numbers
  rw [if_pos h.mlfqs] at hafter
  have hsort := spares_threadMlfqsTick (s := beforeMlfqsTick s) inert_numbers
  have hticks : (beforeMlfqsTick s).ticks = s.ticks + 1 := hbefore.ticks
  have htick : ((beforeMlfqsTick s).ticks % timerFreq = 0) = ((s.ticks + 1) % 100 = 0) := by
    rw [hticks]
    rfl
  refine ⟨?_, ⟨?_, fun t ht hne r' hr' => ?_⟩⟩
  · rw [hafter.ticks, hsort.ticks, ticks_mlfqsNumbers, hticks]
  · rw [hafter.loadAvg, loadAvg_threadMlfqsTick]
    simp only [htick]
    split
    · exact hnext
    · exact hbefore.loadAvg.trans hl.load
  · obtain ⟨r₁, hr₁, hc₁, -⟩ := Nums.records hafter hr'
    obtain ⟨r₂, hr₂, hc₂, -⟩ := Nums.records hsort hr₁
    rw [hc₁, hc₂]
    rw [hall] at ht
    unfold mlfqsNumbers at hr₂
    simp only [htick] at hr₂
    split at hr₂
    · next hzero =>
      rw [if_pos hzero]
      have hcount : (mlfqsCount (beforeMlfqsTick s)).allList = (beforeMlfqsTick s).allList := by
        unfold mlfqsCount
        split <;> rfl
      rw [mlfqsSecond_threads (hcount ▸ hrun.core.all_nodup) (hcount ▸ hall' ▸ ht), mlfqsCount_loadAvg,
        readyThreads_mlfqsCount, hnext] at hr₂
      obtain ⟨r₃, hr₃, rfl⟩ := Option.map_eq_some_iff.1 hr₂
      obtain ⟨hcpu, hnice⟩ := hl.count h hb ht hne hr₃
      have hcur : (beforeMlfqsTick s).cur ∈ (beforeMlfqsTick s).allList :=
        (hrun.core.all _).2 ⟨.running, hrun.cur, by decide⟩
      obtain ⟨-, hw, -⟩ := mlfqsCount_eq le_rfl hcur hb.before.1 hb.before.2 (by omega)
      show (crowdSeq m (j + 1)).2 ≤ nextRecentCpu (crowdSeq m (j + 1)).1 r₃.recentCpu r₃.nice
      rw [hnice]
      exact nextRecentCpu_lower le_rfl hx hcpu ⟨hw.low t r₃ hr₃, hw.high t r₃ hr₃⟩
    · next hzero =>
      rw [if_neg hzero]
      exact (hl.count h hb ht hne hr₂).1

/-! ### A run -/

/-- A state of a run of at most 500 threads, `j` seconds after the crowd has come together. -/
structure Crowded (m j : ℕ) (s : St) : Prop where
  reach : sys.ReachableVia (fun s _ => Tame 500 s) s
  crowd : Crowd m s
  loaded : Loaded m j s

/-- A thread that is chosen for the first time turns on interrupts. -/
theorem Crowded.settle (hm : m < 500) (h : Crowded m j s) : ∃ s', Crowded m j s' ∧ s'.ticks = s.ticks ∧
    ∃ r, s'.threads s'.cur = some r ∧ r.cont = [] ∧ r.level = true := by
  have hrun := h.crowd.inv.running
  obtain ⟨r, hr⟩ := h.crowd.inv.record h.crowd.inv.cur_alive
  have hcur : s.cur ∈ s.allList := (hrun.core.all _).2 ⟨.running, hrun.cur, by decide⟩
  obtain hk | ⟨hc, hl⟩ := h.crowd.conts _ hcur h.crowd.cur r hr
  · have hst : r.status = .running := by
      have hst := hrun.cur
      simpa [St.status, hr] using hst
    let d := (s.upd s.cur fun r => { r with level := true }).goOn []
    have hs : step s .run = some d := by simp [step, hrun.ok, hr, hst, stepAt, hk, exec, d]
    have hlevel : Nums s (s.upd s.cur fun r => { r with level := true }) := spares_upd fun _ => rfl
    have hn : Nums s d := hlevel.upd fun _ => rfl
    have hstatus : d.status = s.status := status_goOn.trans (status_upd fun _ => rfl)
    have hself : d.threads s.cur = some { r with level := true, cont := [] } := by
      simp [d, St.goOn, St.upd, hr]
    have hother : ∀ t, t ≠ s.cur → d.threads t = s.threads t := by
      intro t ht
      simp [d, St.goOn, St.upd, ht]
    refine ⟨d, ⟨.step h.reach (h.crowd.tame hm) hs, ?_, ?_⟩, rfl, _, hself, rfl, rfl⟩
    · refine ⟨h.crowd.inv.step hs, h.crowd.mlfqs, h.crowd.idle, h.crowd.cur, h.crowd.len, ?_, ?_, ?_⟩
      · rw [hstatus]
        exact h.crowd.awake
      · intro t ht r' hr'
        obtain ⟨q, hq, -, he⟩ := hn.records hr'
        exact he.trans (h.crowd.nice t ht q hq)
      · intro t ht hne r' hr'
        by_cases htc : t = s.cur
        · subst htc
          obtain rfl := Option.some.inj (hself.symm.trans hr')
          exact .inr ⟨rfl, rfl⟩
        · exact h.crowd.conts t ht hne r' (hother t htc ▸ hr')
    · refine ⟨h.loaded.load, fun t ht hne r' hr' => ?_⟩
      obtain ⟨q, hq, he, -⟩ := hn.records hr'
      exact he ▸ h.loaded.cpu t ht hne q hq
  · exact ⟨s, h, rfl, r, hr, hc, hl⟩

theorem Crowded.tick (hm : m < 500) (h : Crowded m j s) : ∃ s',
    Crowded m (if (s.ticks + 1) % 100 = 0 then j + 1 else j) s' ∧ s'.ticks = s.ticks + 1 := by
  obtain ⟨d, hd, ht, r, hr, hc, hl⟩ := h.settle hm
  have hst : r.status = .running := by
    have hcur := hd.crowd.inv.running.cur
    simpa [St.status, hr] using hcur
  have hs : step d .tick = some (intrHandler timerInterrupt d) := by
    simp [step, hd.crowd.inv.running.ok, hr, hst, stepAt, intrOn, hc, hl]
  have hb : Bsd 500 d := bsd_of_reachable le_rfl hd.reach
  obtain ⟨hticks, hloaded⟩ := hd.loaded.tick hm hd.crowd hb hs
  rw [ht] at hticks hloaded
  exact ⟨_, ⟨.step hd.reach (hd.crowd.tame hm) hs, hd.crowd.tick hs, hloaded⟩, hticks⟩

/-- **The crowd after `k` ticks.** -/
theorem Crowded.ticks (hm : m < 500) (h : Crowded m 0 s) (h0 : s.ticks = 0) (k : ℕ) :
    ∃ s', Crowded m (k / 100) s' ∧ s'.ticks = k := by
  induction k with
  | zero => exact ⟨s, h, h0⟩
  | succ k ih =>
    obtain ⟨d, hd, ht⟩ := ih
    obtain ⟨s', hs', ht'⟩ := hd.tick hm
    refine ⟨s', ?_, by rw [ht', ht]; rfl⟩
    have hj : (if (d.ticks + 1) % 100 = 0 then k / 100 + 1 else k / 100) = (k + 1) / 100 := by
      rw [ht]
      split <;> omega
    exact hj ▸ hs'

end Crowd

/-- The initial thread takes the nice value 20 and creates `n` threads. -/
def crowdActs (n : ℕ) : List Act :=
  List.replicate 7 Act.run ++ Act.call (.setNice 20) :: List.replicate 2 Act.run ++
    (List.range n).flatMap fun i => Act.call (.threadCreate (i + 2) 31) :: List.replicate 9 Act.run

theorem crowded_start : ∃ s, Crowded 40 0 s ∧ s.ticks = 0 := by
  obtain ⟨s, hr, ⟨hm, hi, hc, hlen⟩, hall, hload, ht⟩ := System.exists_of_runWith
    (fun s => (s.mlfqs = true ∧ s.idleThread = some idlePage ∧ s.cur ≠ idlePage ∧ s.allList.length = 40 + 1) ∧
      (∀ t ∈ s.allList, (t ≠ idlePage → s.status t ≠ some .blocked) ∧ ∀ r ∈ s.threads t,
        (r.nice = if t = idlePage then 0 else 20) ∧ r.recentCpu = 0 ∧
        (t ≠ idlePage → r.cont = [.kernelThread] ∨ r.cont = [] ∧ r.level = true)) ∧
      s.loadAvg = 0 ∧ s.ticks = 0)
    (show (sys.runWith (fun s _ => decide (Tame 500 s)) (initial false true fun _ => 0)
      (crowdActs 39)).any _ = true by decide +kernel)
  have himp : ∀ s (a : Act), decide (Tame 500 s) = true → Tame 500 s := fun _ _ => of_decide_eq_true
  have hreach : sys.ReachableVia (fun s _ => Tame 500 s) s :=
    System.reachableVia_of_runWith himp ⟨false, true, _, rfl⟩ hr
  have hinv : Inv s := Inv.reachable (hreach.mono fun _ _ _ => trivial)
  refine ⟨s, ⟨hreach, ⟨hinv, hm, hi, hc, hlen, fun t ht => (hall t ht).1, ?_, ?_⟩, ⟨hload, ?_⟩⟩, ht⟩
  · exact fun t ht r hr => ((hall t ht).2 r hr).1
  · exact fun t ht hne r hr => ((hall t ht).2 r hr).2.2 hne
  · exact fun t ht hne r hr => ((hall t ht).2 r hr).2.1.ge

/-- **After 190 seconds with 40 busy threads of nice value 20** the product overflows in the thread on the
CPU, whichever of them that is. -/
theorem threadGetRecentCpu_wrong : ∃ s r, sys.ReachableVia (fun s _ => Tame 500 s) s ∧ Tame 500 s ∧
    s.threads s.cur = some r ∧ r.cont = [] ∧
    threadGetRecentCpu s ≠ ⌈((100 * r.recentCpu : ℤ) : ℚ) / 2 ^ 14⌉ := by
  obtain ⟨s₀, h₀, ht₀⟩ := crowded_start
  obtain ⟨s₁, h₁, -⟩ := h₀.ticks (by decide) ht₀ 19000
  obtain ⟨s, h, -, r, hr, hc, -⟩ := h₁.settle (by decide)
  refine ⟨s, r, h.reach, h.crowd.tame (by decide), hr, hc, ?_⟩
  have hrun := h.crowd.inv.running
  have hcur : s.cur ∈ s.allList := (hrun.core.all _).2 ⟨.running, hrun.cur, by decide⟩
  have hcpu := h.loaded.cpu _ hcur h.crowd.cur r hr
  have hseq : (21474837 : ℤ) ≤ (crowdSeq 40 190).2 := by decide +kernel
  rw [ne_eq, threadGetRecentCpu_eq_ceil hr]
  have hle : (21474837 : ℤ) ≤ r.recentCpu := hseq.trans hcpu
  omega

/-- In the state before the first tick the accessor is right. -/
theorem threadGetRecentCpu_initial : threadGetRecentCpu (initial false true fun _ => 0) =
    ⌈((100 * 0 : ℤ) : ℚ) / 2 ^ 14⌉ :=
  (threadGetRecentCpu_eq_ceil (s := initial false true fun _ => 0) (r := {
    tid := 1, status := .running, priority := priDefault, nice := 0, recentCpu := 0,
    wakeupTick := 0, level := true, cont := [.down idleStarted], stamp := 0, moved := false }) rfl).2
    (by decide)

end Threads
end Pintos
