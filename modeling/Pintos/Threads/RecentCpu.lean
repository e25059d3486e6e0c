import Pintos.Threads.LoadAvg
import Pintos.Threads.Wakeup

/-!
# The numbers of the BSD scheduler do not overflow

`recent_cpu` grows by one in each tick of the thread on the CPU. Once a second it is multiplied by
`2 load_avg / (2 load_avg + 1)`, which tends to 1 as the load grows, and `nice` is added. With at most `n`
threads `load_avg` is at most `n`, the factor at most `2n / (2n + 1)`, and `240 n + 120` is what one second
can lead to from itself. `Bsd` is the invariant: the bound of a thread that has not ended is lower by the
number of ticks that are left of the second.

`threadMlfqsTick?` is `thread_mlfqs_tick` with checked arithmetic. In a run with at most 500 threads and
nice values in [-20, 20] it never fails (`bsd_bounded`).
-/

namespace Pintos
namespace Threads

/-! ### Checked arithmetic -/

/-- `recent_cpu` after one more second. -/
def nextRecentCpu (loadAvg recentCpu nice : ℤ) : ℤ :=
  fpAddInt (fpMul (fpDiv (fpMulInt loadAvg 2) (fpAddInt (fpMulInt loadAvg 2) 1)) recentCpu) nice

/-- The decay without the nice value, where nothing overflows. -/
def decay (loadAvg recentCpu : ℤ) : ℤ :=
  (loadAvg * 2 * 16384 / (loadAvg * 2 + 16384) * recentCpu).tdiv 16384

def nextRecentCpu? (loadAvg recentCpu nice : ℤ) : Option ℤ := do
  let coef ← fpDiv? (← fpMulInt? loadAvg 2) (← fpAddInt? (← fpMulInt? loadAvg 2) 1)
  fpAddInt? (← fpMul? coef recentCpu) nice

def nextLoadAvg? (loadAvg r : ℤ) : Option ℤ := do
  fpAdd? (← fpMul? (← fpDiv? (← fpFromInt? 59) (← fpFromInt? 60)) loadAvg)
    (← fpMulInt? (← fpDiv? (← fpFromInt? 1) (← fpFromInt? 60)) r)

def calcPriority? (recentCpu nice : ℤ) : Option ℤ := do
  let x ← fpSubInt? (← fpSub? (← fpFromInt? priMax) (← fpDivInt? recentCpu 4)) (← int32? (nice * 2))
  let priority := fpToIntZero x
  some (if priority < priMin then priMin else if priority > priMax then priMax else priority)

/-- `thread_update_recent_cpu`. -/
def threadUpdateRecentCpu? (s : St) (t : ℕ) : Option St :=
  match s.threads t with
  | some r => do
    let recentCpu ← nextRecentCpu? s.loadAvg r.recentCpu r.nice
    some (s.upd t fun r => { r with recentCpu := recentCpu })
  | none => some s

/-- `thread_calc_priority`. -/
def threadCalcPriority? (s : St) (t : ℕ) : Option St :=
  match s.threads t with
  | some r => do return s.setPrio t (← calcPriority? r.recentCpu r.nice)
  | none => some s

/-- `thread_update_priority`. -/
def threadUpdatePriority? (s : St) (t : ℕ) : Option St :=
  if s.idleThread = some t then some s else threadCalcPriority? s t

/-- `thread_mlfqs_tick`: the tick of the thread on the CPU. -/
def mlfqsCount? (s : St) : Option St :=
  if s.idleThread = some s.cur then some s
  else match s.threads s.cur with
    | some r => do
      let recentCpu ← fpAddInt? r.recentCpu 1
      some (s.upd s.cur fun r => { r with recentCpu := recentCpu })
    | none => some s

/-- `thread_mlfqs_tick`: the second's update of `load_avg` and of every `recent_cpu`. -/
def mlfqsSecond? (s : St) : Option St := do
  let loadAvg ← nextLoadAvg? s.loadAvg (readyThreads s)
  s.allList.foldlM threadUpdateRecentCpu? { s with loadAvg := loadAvg }

/-- `thread_mlfqs_tick`: the update of the priorities and the sort of `ready_list`. -/
def mlfqsSort? (s : St) : Option St := do
  let s ← s.allList.foldlM threadUpdatePriority? s
  some { s with readyList := listSort (priorityGreater s) s.readyList }

/-- `thread_mlfqs_tick` before it computes priorities. -/
def mlfqsNumbers? (s : St) : Option St := do
  let d ← mlfqsCount? s
  if s.ticks % timerFreq = 0 then mlfqsSecond? d else some d

/-- `thread_mlfqs_tick`. -/
def threadMlfqsTick? (s : St) : Option St := do
  let d ← mlfqsNumbers? s
  if s.ticks % timeSlice = 0 then do return checkPreemptIntr (← mlfqsSort? d) else some d

/-! ### Bounds -/

/-- The bounds of `load_avg` and of every `recent_cpu`. -/
structure Within (n : ℕ) (s : St) : Prop where
  load : 0 ≤ s.loadAvg ∧ s.loadAvg ≤ n * 16384
  low : ∀ t r, s.threads t = some r → -(40 * n + 20) * 16384 ≤ r.recentCpu
  high : ∀ t r, s.threads t = some r → r.recentCpu ≤ (240 * n + 120) * 16384

/-- No thread that has not ended has a `recent_cpu` above `b`. -/
def Alive (b : ℤ) (s : St) : Prop :=
  ∀ t ∈ s.allList, ∀ r, s.threads t = some r → r.recentCpu ≤ b * 16384

/-- Between two ticks: a thread that has not ended has room for the ticks that are left of the second. -/
structure Bsd (n : ℕ) (s : St) : Prop extends Within n s where
  alive : Alive (240 * n + 20 + s.ticks % 100) s

/-- The nice values of the threads that have not ended. -/
def NiceIn (s : St) : Prop := ∀ t ∈ s.allList, ∀ r ∈ s.threads t, -20 ≤ r.nice ∧ r.nice ≤ 20

/-- At most `n` threads, with nice values in the range of `nice`. -/
structure Tame (n : ℕ) (s : St) : Prop where
  mlfqs : s.mlfqs = true
  few : s.allList.length ≤ n
  nice : NiceIn s

section Numbers

variable {n : ℕ} {x r c m z p : ℤ}

theorem nextRecentCpu_of_checked (h : nextRecentCpu? x c m = some z) : nextRecentCpu x c m = z := by
  simp only [nextRecentCpu?, Option.bind_eq_bind, Option.bind_eq_some_iff] at h
  obtain ⟨a, ha, a', ha', b, hb, k, hk, q, hq, hz⟩ := h
  obtain rfl : a = a' := Option.some.inj (ha.symm.trans ha')
  rw [nextRecentCpu, fpMulInt_of_checked ha, fpAddInt_of_checked hb, fpDiv_of_checked hk,
    fpMul_of_checked hq, fpAddInt_of_checked hz]

theorem nextLoadAvg_of_checked (h : nextLoadAvg? x r = some z) : nextLoadAvg x r = z := by
  simp only [nextLoadAvg?, Option.bind_eq_bind, Option.bind_eq_some_iff] at h
  obtain ⟨a, ha, b, hb, k, hk, q, hq, a', ha', b', hb', k', hk', q', hq', hz⟩ := h
  rw [nextLoadAvg, fpFromInt_of_checked ha, fpFromInt_of_checked hb, fpDiv_of_checked hk,
    fpMul_of_checked hq, fpFromInt_of_checked ha', ← fpFromInt_of_checked hb, fpFromInt_of_checked hb',
    fpDiv_of_checked hk', fpMulInt_of_checked hq', fpAdd_of_checked hz]

theorem calcPriority_of_checked (h : calcPriority? c m = some z) : calcPriority c m = z := by
  simp only [calcPriority?, Option.bind_eq_bind, Option.bind_eq_some_iff] at h
  obtain ⟨a, ha, b, hb, d, hd, e, he, q, hq, hz⟩ := h
  rw [calcPriority, fpFromInt_of_checked ha, fpDivInt_of_checked hb, fpSub_of_checked hd,
    wrap32_of_int32? he, fpSubInt_of_checked hq]
  exact Option.some.inj hz

/-- **The decay of one second.** -/
theorem nextRecentCpu?_bounds (hn : n ≤ 500) (hx : 0 ≤ x ∧ x ≤ n * 16384)
    (hc : -(40 * n + 20) * 16384 ≤ c ∧ c ≤ (240 * n + 120) * 16384) (hm : -20 ≤ m ∧ m ≤ 20) :
    ∃ z, nextRecentCpu? x c m = some z ∧ z = decay x c + m * 16384 ∧
      -(40 * n + 20) * 16384 ≤ z ∧ z ≤ (240 * n + 20) * 16384 := by
  obtain ⟨k, hk⟩ : ∃ k, k = x * 2 * 16384 / (x * 2 + 16384) := ⟨_, rfl⟩
  have hk0 : 0 ≤ k := hk ▸ Int.ediv_nonneg (by omega) (by omega)
  have hmul : k * (x * 2 + 16384) ≤ x * 2 * 16384 := hk ▸ Int.ediv_mul_le _ (by omega)
  have hk1 : k < 16384 := by nlinarith
  -- the factor is at most `2n / (2n + 1)`
  have hfactor : k * (2 * n + 1) ≤ 2 * n * 16384 := by nlinarith
  have hlo : (-(40 * n) * 16384) * 16384 ≤ k * c :=
    calc (-(40 * (n : ℤ)) * 16384) * 16384 = -(20 * 16384) * (2 * n * 16384) := by ring
      _ ≤ -(20 * 16384) * (k * (2 * n + 1)) := by linarith
      _ = k * (-(40 * n + 20) * 16384) := by ring
      _ ≤ k * c := mul_le_mul_of_nonneg_left hc.1 hk0
  have hhi : k * c ≤ (240 * n * 16384) * 16384 :=
    calc k * c ≤ k * ((240 * n + 120) * 16384) := mul_le_mul_of_nonneg_left hc.2 hk0
      _ = 120 * 16384 * (k * (2 * n + 1)) := by ring
      _ ≤ 120 * 16384 * (2 * n * 16384) := by linarith
      _ = (240 * n * 16384) * 16384 := by ring
  obtain ⟨hq1, hq2⟩ := tdiv_fpF_bounds hlo hhi
  have h1 : fpMulInt? x 2 = some (x * 2) := int32?_of_fits ⟨by omega, by omega⟩
  have h2 : fpAddInt? (x * 2) 1 = some (x * 2 + 1 * 16384) :=
    fpAddInt?_of_fits ⟨by omega, by omega⟩ ⟨by omega, by omega⟩
  have h3 : fpDiv? (x * 2) (x * 2 + 1 * 16384) = some k := by
    have h64 : int64? (x * 2 * 16384) = some (x * 2 * 16384) := int64?_of_le (by omega) (by omega)
    have hdiv : (x * 2 * 16384).tdiv (x * 2 + 1 * 16384) = k := by
      rw [Int.tdiv_eq_ediv_of_nonneg (by omega), hk, one_mul]
    rw [fpDiv?, if_neg (by omega), fpF, h64]
    show int32? ((x * 2 * 16384).tdiv (x * 2 + 1 * 16384)) = some k
    rw [hdiv, int32?_of_fits ⟨by omega, by omega⟩]
  have h4 : fpMul? k c = some ((k * c).tdiv 16384) :=
    fpMul?_of_le hlo hhi ⟨by omega, by omega⟩ ⟨by omega, by omega⟩
  have h5 : fpAddInt? ((k * c).tdiv 16384) m = some ((k * c).tdiv 16384 + m * 16384) :=
    fpAddInt?_of_fits ⟨by omega, by omega⟩ ⟨by omega, by omega⟩
  exact ⟨(k * c).tdiv 16384 + m * 16384, 
    by simp only [nextRecentCpu?, h1, h2, h3, h4, h5, Option.bind_eq_bind, Option.bind_some],
    by rw [decay, hk], by omega, by omega⟩

theorem nextLoadAvg?_bounds (hn : n ≤ 500) (hx : 0 ≤ x ∧ x ≤ n * 16384) (hr : 0 ≤ r ∧ r ≤ n) :
    ∃ z, nextLoadAvg? x r = some z ∧ 0 ≤ z ∧ z ≤ n * 16384 := by
  have h59 : fpDiv? 966656 983040 = some 16110 := by decide
  have h1 : fpDiv? 16384 983040 = some 273 := by decide
  have hf59 : fpFromInt? 59 = some 966656 := by decide
  have hf60 : fpFromInt? 60 = some 983040 := by decide
  have hf1 : fpFromInt? 1 = some 16384 := by decide
  have hmul : fpMul? 16110 x = some ((16110 * x).tdiv 16384) :=
    fpMul?_of_le (a := 0) (b := x) (by omega) (by omega) (by decide) ⟨by omega, by omega⟩
  have hint : fpMulInt? 273 r = some (273 * r) := int32?_of_fits ⟨by omega, by omega⟩
  rw [Int.tdiv_eq_ediv_of_nonneg (by omega)] at hmul
  have hadd : fpAdd? (16110 * x / 16384) (273 * r) = some (16110 * x / 16384 + 273 * r) :=
    int32?_of_fits ⟨by omega, by omega⟩
  exact ⟨16110 * x / 16384 + 273 * r, by simp only [nextLoadAvg?, hf59, hf60, hf1, h59, h1, hmul, hint,
    hadd, Option.bind_eq_bind, Option.bind_some], by omega, by omega⟩

/-- **The priority of a thread.** -/
theorem calcPriority?_bounds (hn : n ≤ 500)
    (hc : -(40 * n + 20) * 16384 ≤ c ∧ c ≤ (240 * n + 120) * 16384) (hm : -20 ≤ m ∧ m ≤ 20) :
    calcPriority? c m = some (calcPriority c m) := by
  have hq : -(10 * n + 5) * 16384 ≤ c.tdiv 4 ∧ c.tdiv 4 ≤ (60 * n + 30) * 16384 := by
    have hsign : (4 : ℤ).sign = 1 := rfl
    rw [Int.tdiv_eq_ediv, hsign]
    split <;> omega
  have h1 : fpFromInt? priMax = some 1032192 := by decide
  have h2 : fpDivInt? c 4 = some (c.tdiv 4) := by
    rw [fpDivInt?, if_neg (by decide), int32?_of_fits ⟨by omega, by omega⟩]
  have h3 : fpSub? 1032192 (c.tdiv 4) = some (1032192 - c.tdiv 4) := int32?_of_fits ⟨by omega, by omega⟩
  have h4 : int32? (m * 2) = some (m * 2) := int32?_of_fits ⟨by omega, by omega⟩
  have h5 : fpSubInt? (1032192 - c.tdiv 4) (m * 2) = some (1032192 - c.tdiv 4 - m * 2 * 16384) :=
    fpSubInt?_of_fits ⟨by omega, by omega⟩ ⟨by omega, by omega⟩
  obtain ⟨z, hz⟩ : ∃ z, calcPriority? c m = some z := by
    simp only [calcPriority?, h1, h2, h3, h4, h5, Option.bind_eq_bind, Option.bind_some]
    exact ⟨_, rfl⟩
  rw [hz, calcPriority_of_checked hz]

theorem calcPriority_range (c m : ℤ) : priMin ≤ calcPriority c m ∧ calcPriority c m ≤ priMax := by
  unfold calcPriority priMin priMax
  dsimp only
  split
  · omega
  · split <;> omega

end Numbers

section Tick

variable {n : ℕ} {s s' d : St} {t : ℕ} {b : ℤ} {f g : Thread → Thread}

/-! ### What leaves the numbers alone -/

theorem Within.nums (h : Within n s) (hn : Nums s d) : Within n d := by
  refine ⟨hn.loadAvg ▸ h.load, fun t r' hr' => ?_, fun t r' hr' => ?_⟩
  · obtain ⟨r, hr, hc, -⟩ := hn.records hr'
    exact hc ▸ h.low t r hr
  · obtain ⟨r, hr, hc, -⟩ := hn.records hr'
    exact hc ▸ h.high t r hr

theorem Alive.nums (h : Alive b s) (hn : Nums s d) : Alive b d := by
  intro t ht r' hr'
  obtain ⟨r, hr, hc, -⟩ := hn.records hr'
  exact hc ▸ h t (hn.allList.subset ht) r hr

theorem NiceIn.nums (h : NiceIn s) (hn : Nums s d) : NiceIn d := by
  intro t ht r' hr'
  obtain ⟨r, hr, -, hm⟩ := hn.records hr'
  exact hm ▸ h t (hn.allList.subset ht) r hr

theorem upd_congr (h : ∀ r, s.threads t = some r → f r = g r) : s.upd t f = s.upd t g := by
  unfold St.upd
  cases hr : s.threads t with
  | none => rfl
  | some r => simp [h r hr]

theorem upd_of_none (h : s.threads t = none) : s.upd t f = s := by
  unfold St.upd
  have hself : Function.update s.threads t ((s.threads t).map f) = s.threads := by
    rw [h, Option.map_none, ← h, Function.update_eq_self]
  rw [hself]

/-! ### Loops -/

/-- A loop whose turns do not fail does not fail. -/
theorem foldlM_eq_some {g : St → ℕ → St} {g? : St → ℕ → Option St} {P : St → Prop} {l : List ℕ}
    (hg : ∀ d, P d → ∀ t ∈ l, g? d t = some (g d t) ∧ P (g d t)) (h : P s) :
    l.foldlM g? s = some (l.foldl g s) ∧ P (l.foldl g s) := by
  induction l generalizing s with
  | nil => exact ⟨rfl, h⟩
  | cons t l ih =>
    obtain ⟨ht, hP⟩ := hg s h t List.mem_cons_self
    obtain ⟨hl, hP'⟩ := ih (fun d hd u hu => hg d hd u (List.mem_cons_of_mem t hu)) hP
    exact ⟨by simp [List.foldlM_cons, ht, hl], hP'⟩

/-- What the turn of `t` brings about and every turn keeps holds after the loop. -/
theorem foldl_of_mem {g : St → ℕ → St} {P Q : St → Prop} {l : List ℕ}
    (hP : ∀ d, P d → ∀ u ∈ l, P (g d u)) (hdo : ∀ d, P d → Q (g d t))
    (hkeep : ∀ d, P d → Q d → ∀ u ∈ l, Q (g d u)) (ht : t ∈ l) (h : P s) : Q (l.foldl g s) := by
  have hkept : ∀ (k : List ℕ) (d : St), k ⊆ l → P d → Q d → Q (k.foldl g d) := by
    intro k
    induction k with
    | nil => exact fun d _ _ hd => hd
    | cons u k ih =>
      intro d hk hd hq
      have hu := hk List.mem_cons_self
      exact ih _ (fun v hv => hk (List.mem_cons_of_mem u hv)) (hP d hd u hu) (hkeep d hd hq u hu)
  have hall : ∀ (k : List ℕ) (d : St), k ⊆ l → P d → t ∈ k → Q (k.foldl g d) := by
    intro k
    induction k with
    | nil => exact fun _ _ _ hm => nomatch hm
    | cons u k ih =>
      intro d hk hd hm
      have hk' : k ⊆ l := fun v hv => hk (List.mem_cons_of_mem u hv)
      have hd' := hP d hd u (hk List.mem_cons_self)
      by_cases htu : t = u
      · subst htu
        exact hkept k _ hk' hd' (hdo d hd)
      · exact ih _ hk' hd' ((List.mem_cons.1 hm).resolve_left htu)
  exact hall l s (fun _ hu => hu) h ht

/-! ### The parts of `thread_mlfqs_tick` -/

theorem mlfqsCount_eq (hn : n ≤ 500) (hcur : s.cur ∈ s.allList) (hw : Within n s) (ha : Alive b s)
    (hb : b + 1 ≤ 240 * n + 120) : mlfqsCount? s = some (mlfqsCount s) ∧ Within n (mlfqsCount s) ∧
      Alive (b + 1) (mlfqsCount s) := by
  have hmono : Alive (b + 1) s := fun t ht r hr => by
    have := ha t ht r hr
    omega
  unfold mlfqsCount? mlfqsCount
  by_cases hi : s.idleThread = some s.cur
  · simp only [hi, if_true]
    exact ⟨trivial, hw, hmono⟩
  · simp only [hi, if_false]
    cases hr : s.threads s.cur with
    | none =>
      rw [upd_of_none hr]
      exact ⟨rfl, hw, hmono⟩
    | some r =>
      have hlow := hw.low _ r hr
      have hle := ha _ hcur r hr
      have hadd : fpAddInt? r.recentCpu 1 = some (r.recentCpu + 1 * 16384) :=
        fpAddInt?_of_fits ⟨by omega, by omega⟩ ⟨by omega, by omega⟩
      have hval : fpAddInt r.recentCpu 1 = r.recentCpu + 16384 := by
        rw [fpAddInt_of_checked hadd, one_mul]
      have hset : ∀ u r', (s.upd s.cur fun r => { r with recentCpu := fpAddInt r.recentCpu 1 }).threads u =
          some r' → s.threads u = some r' ∨ r'.recentCpu = r.recentCpu + 16384 := by
        intro u r' hr'
        obtain ⟨q, hq, ⟨rfl, -⟩ | ⟨rfl, rfl⟩⟩ := threads_upd hr'
        · exact .inl hq
        · obtain rfl : q = r := Option.some.inj (hq.symm.trans hr)
          exact .inr hval
      refine ⟨?_, ⟨hw.load, fun u r' hr' => ?_, fun u r' hr' => ?_⟩, fun u hu r' hr' => ?_⟩
      · simp only [hadd, Option.bind_eq_bind, Option.bind_some, Option.some.injEq]
        refine upd_congr fun q hq => ?_
        obtain rfl : q = r := Option.some.inj (hq.symm.trans hr)
        rw [hval, one_mul]
      · obtain hq | hq := hset u r' hr'
        · exact hw.low u r' hq
        · omega
      · obtain hq | hq := hset u r' hr'
        · exact hw.high u r' hq
        · omega
      · obtain hq | hq := hset u r' hr'
        · exact hmono u hu r' hq
        · omega

/-- One turn of the second's loop. -/
theorem threadUpdateRecentCpu_eq (hn : n ≤ 500) (hw : Within n s) (hm : NiceIn s) (ht : t ∈ s.allList) :
    threadUpdateRecentCpu? s t = some (threadUpdateRecentCpu s t) ∧
      Within n (threadUpdateRecentCpu s t) ∧ NiceIn (threadUpdateRecentCpu s t) ∧
      ∀ r, (threadUpdateRecentCpu s t).threads t = some r → r.recentCpu ≤ (240 * n + 20) * 16384 := by
  have hupd : threadUpdateRecentCpu s t = s.upd t fun r =>
      { r with recentCpu := nextRecentCpu s.loadAvg r.recentCpu r.nice } := rfl
  have hnice : NiceIn (threadUpdateRecentCpu s t) := by
    intro u hu r' hr'
    obtain ⟨q, hq, ⟨rfl, -⟩ | ⟨rfl, rfl⟩⟩ := threads_upd hr'
    · exact hm u hu r' hq
    · exact hm u hu q hq
  unfold threadUpdateRecentCpu?
  cases hr : s.threads t with
  | none =>
    rw [hupd, upd_of_none hr]
    exact ⟨rfl, hw, hm, fun r hr' => by rw [hr] at hr'; cases hr'⟩
  | some r =>
    obtain ⟨z, hz, -, hlow, hhigh⟩ := nextRecentCpu?_bounds hn hw.load ⟨hw.low t r hr, hw.high t r hr⟩
      (hm t ht r hr)
    have hval := nextRecentCpu_of_checked hz
    have hset : ∀ u r', (threadUpdateRecentCpu s t).threads u = some r' →
        s.threads u = some r' ∧ u ≠ t ∨ u = t ∧ r'.recentCpu = z := by
      intro u r' hr'
      obtain ⟨q, hq, ⟨rfl, hne⟩ | ⟨rfl, rfl⟩⟩ := threads_upd hr'
      · exact .inl ⟨hq, hne⟩
      · obtain rfl : q = r := Option.some.inj (hq.symm.trans hr)
        exact .inr ⟨rfl, hval⟩
    refine ⟨?_, ⟨hw.load, fun u r' hr' => ?_, fun u r' hr' => ?_⟩, hnice, fun r' hr' => ?_⟩
    · simp only [hz, Option.bind_eq_bind, Option.bind_some, Option.some.injEq, hupd]
      refine upd_congr fun q hq => ?_
      obtain rfl : q = r := Option.some.inj (hq.symm.trans hr)
      rw [hval]
    · obtain ⟨hq, -⟩ | ⟨-, hq⟩ := hset u r' hr'
      · exact hw.low u r' hq
      · exact hq ▸ hlow
    · obtain ⟨hq, -⟩ | ⟨-, hq⟩ := hset u r' hr'
      · exact hw.high u r' hq
      · omega
    · obtain ⟨-, hq⟩ | ⟨-, hq⟩ := hset t r' hr'
      · exact absurd rfl hq
      · exact hq ▸ hhigh

theorem mlfqsSecond_eq (hn : n ≤ 500) (hr : 0 ≤ readyThreads s ∧ readyThreads s ≤ n) (hw : Within n s)
    (hm : NiceIn s) : mlfqsSecond? s = some (mlfqsSecond s) ∧ Within n (mlfqsSecond s) ∧
      NiceIn (mlfqsSecond s) ∧ Alive (240 * n + 20) (mlfqsSecond s) := by
  obtain ⟨x, hx, hx0, hxn⟩ := nextLoadAvg?_bounds hn hw.load hr
  have hval := nextLoadAvg_of_checked hx
  let P : St → Prop := fun d => (Within n d ∧ NiceIn d) ∧ d.allList = s.allList
  have hstart : P { s with loadAvg := x } := ⟨⟨⟨⟨hx0, hxn⟩, hw.low, hw.high⟩, hm⟩, rfl⟩
  have hturn : ∀ d, P d → ∀ t ∈ s.allList,
      threadUpdateRecentCpu? d t = some (threadUpdateRecentCpu d t) ∧ P (threadUpdateRecentCpu d t) := by
    rintro d ⟨⟨hd, hdn⟩, hall⟩ t ht
    obtain ⟨heq, hd', hdn', -⟩ := threadUpdateRecentCpu_eq hn hd hdn (hall ▸ ht)
    exact ⟨heq, ⟨hd', hdn'⟩, hall⟩
  have hsec : mlfqsSecond s = s.allList.foldl threadUpdateRecentCpu { s with loadAvg := x } := by
    rw [← hval]
    rfl
  obtain ⟨heq, ⟨hd, hdn⟩, hall⟩ := foldlM_eq_some hturn hstart
  rw [hsec]
  refine ⟨?_, hd, hdn, fun t ht => ?_⟩
  · simp only [mlfqsSecond?, hx, Option.bind_eq_bind, Option.bind_some, heq]
  · refine foldl_of_mem (P := P) (t := t)
      (Q := fun d => ∀ r, d.threads t = some r → r.recentCpu ≤ (240 * n + 20) * 16384)
      (fun d hP u hu => (hturn d hP u hu).2) ?_ ?_ (hall ▸ ht) hstart
    · rintro d ⟨⟨hd, hdn⟩, hall'⟩
      exact (threadUpdateRecentCpu_eq hn hd hdn (hall' ▸ hall ▸ ht)).2.2.2
    · rintro d ⟨⟨hd, hdn⟩, hall'⟩ hq u hu r hr'
      by_cases htu : t = u
      · subst htu
        exact (threadUpdateRecentCpu_eq hn hd hdn (hall' ▸ hu)).2.2.2 r hr'
      · obtain ⟨q, hq', ⟨rfl, -⟩ | ⟨-, he⟩⟩ := threads_upd hr'
        · exact hq r hq'
        · exact absurd he htu

theorem threadUpdatePriority_eq (hn : n ≤ 500) (hw : Within n s) (hm : NiceIn s) (ht : t ∈ s.allList) :
    threadUpdatePriority? s t = some (threadUpdatePriority s t) := by
  unfold threadUpdatePriority? threadUpdatePriority threadCalcPriority? threadCalcPriority
  split
  · rfl
  · cases hr : s.threads t with
    | none => rfl
    | some r =>
      have hp := calcPriority?_bounds hn ⟨hw.low t r hr, hw.high t r hr⟩ (hm t ht r hr)
      simp only [hp, Option.bind_eq_bind, Option.bind_some, Option.pure_def]

theorem mlfqsSort_eq (hn : n ≤ 500) (hw : Within n s) (hm : NiceIn s) :
    mlfqsSort? s = some (mlfqsSort s) := by
  let P : St → Prop := fun d => (Within n d ∧ NiceIn d) ∧ d.allList = s.allList
  have hturn : ∀ d, P d → ∀ t ∈ s.allList,
      threadUpdatePriority? d t = some (threadUpdatePriority d t) ∧ P (threadUpdatePriority d t) := by
    rintro d ⟨⟨hd, hdn⟩, hall⟩ t ht
    exact ⟨threadUpdatePriority_eq hn hd hdn (hall ▸ ht),
      ⟨hd.nums (neutral_spares inert_numbers).threadUpdatePriority, hdn.nums (neutral_spares inert_numbers).threadUpdatePriority⟩,
      same_threadUpdatePriority.allList.trans hall⟩
  obtain ⟨heq, -⟩ := foldlM_eq_some (s := s) hturn ⟨⟨hw, hm⟩, rfl⟩
  simp only [mlfqsSort?, heq, Option.bind_eq_bind, Option.bind_some]
  rfl

/-- The priorities after the loop. -/
theorem mlfqsSort_prio (ht : t ∈ s.allList) (hi : s.idleThread ≠ some t) (hr : s.threads t ≠ none) :
    priMin ≤ (mlfqsSort s).prio t ∧ (mlfqsSort s).prio t ≤ priMax := by
  let P : St → Prop := fun d => d.idleThread ≠ some t ∧ d.threads t ≠ none
  have hsome : ∀ d u, d.threads t ≠ none → (threadUpdatePriority d u).threads t ≠ none := by
    intro d u hd
    unfold threadUpdatePriority threadCalcPriority
    split
    · exact hd
    · split
      · by_cases htu : t = u <;> simp_all [St.setPrio, St.upd]
      · exact hd
  have hdo : ∀ d, P d → priMin ≤ (threadUpdatePriority d t).prio t ∧
      (threadUpdatePriority d t).prio t ≤ priMax := by
    rintro d ⟨hd, hdt⟩
    obtain ⟨r, hr⟩ := Option.ne_none_iff_exists'.mp hdt
    have hp : (threadUpdatePriority d t).prio t = calcPriority r.recentCpu r.nice := by
      simp [threadUpdatePriority, hd, threadCalcPriority, hr, St.prio, St.setPrio, St.upd]
    rw [hp]
    exact calcPriority_range _ _
  refine foldl_of_mem (P := P) (t := t) (g := threadUpdatePriority)
    (Q := fun d => priMin ≤ d.prio t ∧ d.prio t ≤ priMax) ?_ hdo ?_ ht ⟨hi, hr⟩
  · rintro d ⟨hd, hdt⟩ u -
    have hidle : (threadUpdatePriority d u).idleThread = d.idleThread :=
      same_threadUpdatePriority.idleThread
    exact ⟨hidle ▸ hd, hsome d u hdt⟩
  · rintro d hP hq u -
    by_cases htu : t = u
    · exact htu ▸ hdo d hP
    · have hp : (threadUpdatePriority d u).prio t = d.prio t := by
        unfold threadUpdatePriority
        split
        · rfl
        · exact threadCalcPriority_prio_of_ne htu
      rw [hp]
      exact hq

theorem niceIn_mlfqsCount (h : NiceIn s) : NiceIn (mlfqsCount s) := by
  unfold mlfqsCount
  split
  · exact h
  · intro u hu r' hr'
    obtain ⟨q, hq, ⟨rfl, -⟩ | ⟨rfl, rfl⟩⟩ := threads_upd hr'
    · exact h u hu r' hq
    · exact h _ hu q hq

/-- **The numbers of one tick.** A second is over when the ticks that were left of it are used up. -/
theorem mlfqsNumbers_eq (hn : n ≤ 500) (hrun : Running s) (hw : Within n s) (hm : NiceIn s)
    (hfew : s.allList.length ≤ n) (ha : Alive (240 * n + 20 + (s.ticks - 1) % 100) s) :
    mlfqsNumbers? s = some (mlfqsNumbers s) ∧ Bsd n (mlfqsNumbers s) ∧ NiceIn (mlfqsNumbers s) := by
  have hcur : s.cur ∈ s.allList := (hrun.core.all s.cur).2 ⟨.running, hrun.cur, by decide⟩
  obtain ⟨hcount, hw₁, ha₁⟩ := mlfqsCount_eq hn hcur hw ha (by omega)
  have hm₁ := niceIn_mlfqsCount hm
  have hticks : (mlfqsNumbers s).ticks = s.ticks := ticks_mlfqsNumbers
  unfold mlfqsNumbers? mlfqsNumbers at *
  simp only [hcount, Option.bind_eq_bind, Option.bind_some]
  by_cases ht : s.ticks % timerFreq = 0
  · simp only [ht, if_true] at hticks ⊢
    have hr : 0 ≤ readyThreads (mlfqsCount s) ∧ readyThreads (mlfqsCount s) ≤ n := by
      obtain ⟨h0, h1⟩ := readyThreads_bounds hrun
      rw [readyThreads_mlfqsCount]
      exact ⟨h0, h1.trans (by exact_mod_cast hfew)⟩
    obtain ⟨hsec, hw₂, hm₂, ha₂⟩ := mlfqsSecond_eq hn hr hw₁ hm₁
    refine ⟨hsec, ⟨hw₂, ?_⟩, hm₂⟩
    have hzero : (mlfqsSecond (mlfqsCount s)).ticks % 100 = 0 := hticks ▸ ht
    rw [hzero, add_zero]
    exact ha₂
  · simp only [ht, if_false] at hticks ⊢
    refine ⟨trivial, ⟨hw₁, ?_⟩, hm₁⟩
    have hnext : 240 * (n : ℤ) + 20 + (mlfqsCount s).ticks % 100 =
        240 * n + 20 + (s.ticks - 1) % 100 + 1 := by
      have ht' : s.ticks % 100 ≠ 0 := ht
      rw [hticks]
      omega
    rw [hnext]
    exact ha₁

/-- The priorities after `thread_mlfqs_tick`. -/
theorem threadMlfqsTick_prio (hrun : Running s) (htick : s.ticks % timeSlice = 0) (ht : t ∈ s.allList)
    (hi : s.idleThread ≠ some t) :
    priMin ≤ (threadMlfqsTick s).prio t ∧ (threadMlfqsTick s).prio t ≤ priMax := by
  have hsame : Same s (mlfqsNumbers s) := same_mlfqsNumbers
  obtain ⟨x, hx, -⟩ := (hrun.core.all t).1 ht
  have hsome : (mlfqsNumbers s).threads t ≠ none := by
    intro hnone
    rw [← hsame.status] at hx
    simp [St.status, hnone] at hx
  have hprio : ∀ d : St, (checkPreemptIntr d).prio t = d.prio t :=
    fun d => prio_of_face (congrFun aux_checkPreemptIntr.face t)
  rw [threadMlfqsTick_eq, if_pos htick, hprio]
  exact mlfqsSort_prio (hsame.allList ▸ ht) (hsame.idleThread ▸ hi) hsome

/-- **`thread_mlfqs_tick`.** -/
theorem threadMlfqsTick_eq_some (hn : n ≤ 500) (hrun : Running s) (hw : Within n s) (hm : NiceIn s)
    (hfew : s.allList.length ≤ n) (ha : Alive (240 * n + 20 + (s.ticks - 1) % 100) s) :
    threadMlfqsTick? s = some (threadMlfqsTick s) := by
  obtain ⟨hnum, hb, hm'⟩ := mlfqsNumbers_eq hn hrun hw hm hfew ha
  rw [threadMlfqsTick_eq, threadMlfqsTick?, hnum]
  simp only [Option.bind_eq_bind, Option.bind_some]
  split
  · rw [mlfqsSort_eq hn hb.toWithin hm']
    rfl
  · rfl

/-! ### Runs -/

/-- Every `recent_cpu` is an old one or zero. -/
theorem Bsd.of_old (h : Bsd n s) (hload : s'.loadAvg = s.loadAvg) (hticks : s'.ticks = s.ticks)
    (hold : ∀ t r', s'.threads t = some r' → r'.recentCpu = 0 ∨
      ∃ u r, s.threads u = some r ∧ r'.recentCpu = r.recentCpu ∧ (t ∈ s'.allList → u ∈ s.allList)) :
    Bsd n s' := by
  refine ⟨⟨hload ▸ h.load, fun t r' hr' => ?_, fun t r' hr' => ?_⟩, fun t ht r' hr' => ?_⟩
  · obtain h0 | ⟨u, r, hr, he, -⟩ := hold t r' hr'
    · omega
    · exact he ▸ h.low u r hr
  · obtain h0 | ⟨u, r, hr, he, -⟩ := hold t r' hr'
    · omega
    · exact he ▸ h.high u r hr
  · obtain h0 | ⟨u, r, hr, he, hmem⟩ := hold t r' hr'
    · omega
    · rw [he, hticks]
      exact h.alive u (hmem ht) r hr

theorem Bsd.nums (h : Bsd n s) (hd : Nums s d) : Bsd n d := by
  refine h.of_old hd.loadAvg hd.ticks fun t r' hr' => ?_
  obtain ⟨r, hr, hc, -⟩ := hd.records hr'
  exact .inr ⟨t, r, hr, hc, fun ht => hd.allList.subset ht⟩

/-- In front of `thread_mlfqs_tick`. -/
theorem Bsd.before (h : Bsd n s) : Within n (beforeMlfqsTick s) ∧
    Alive (240 * n + 20 + ((beforeMlfqsTick s).ticks - 1) % 100) (beforeMlfqsTick s) := by
  have hd := spares_beforeMlfqsTick (s := s) inert_numbers
  have hw : Within n { s with ticks := s.ticks + 1 } := ⟨h.load, h.low, h.high⟩
  have ha : Alive (240 * n + 20 + s.ticks % 100) { s with ticks := s.ticks + 1 } := h.alive
  have ht : (beforeMlfqsTick s).ticks - 1 = s.ticks := by
    rw [hd.ticks]
    exact add_sub_cancel_right s.ticks 1
  exact ⟨hw.nums hd, ht ▸ ha.nums hd⟩

/-- An elementary change that is not one of the timer interrupt. -/
theorem Bsd.change {k : Cause} (h : Bsd n s) (hk : k ≠ .tick) (hc : Change k s s') : Bsd n s' := by
  obtain hn | ⟨m, rfl⟩ | ⟨c, r, hr, hcur, rfl⟩ | ⟨c, p, hnone, rfl⟩ := hc.nums hk
  · exact h.nums hn
  · refine h.of_old rfl rfl fun t r' hr' => ?_
    obtain ⟨q, hq, ⟨rfl, -⟩ | ⟨rfl, rfl⟩⟩ := threads_upd hr'
    · exact .inr ⟨t, r', hq, rfl, id⟩
    · exact .inr ⟨_, q, hq, rfl, id⟩
  · refine h.of_old rfl rfl fun t r' hr' => ?_
    obtain ⟨q, hq, ⟨rfl, -⟩ | ⟨rfl, rfl⟩⟩ := threads_upd hr'
    · exact .inr ⟨t, r', hq, rfl, id⟩
    · exact .inr ⟨s.cur, r, hr, rfl, fun _ => hcur⟩
  · refine h.of_old rfl rfl fun t r' hr' => ?_
    by_cases htc : t = c
    · subst htc
      simp only [initThread, Function.update_self, Option.some.injEq] at hr'
      exact .inl (hr' ▸ rfl)
    · simp only [initThread, ne_eq, htc, not_false_eq_true, Function.update_of_ne] at hr'
      refine .inr ⟨t, r', hr', rfl, fun ht => ?_⟩
      exact (List.mem_append.1 ht).resolve_right fun hm => htc (List.mem_singleton.1 hm)

theorem Bsd.step (hn : n ≤ 500) (h : Bsd n s) (hi : Inv s) (hok : Tame n s) {a : Act}
    (hs : Threads.step s a = some s') : Bsd n s' := by
  by_cases ha : a = .tick
  · subst ha
    obtain rfl := eq_tick_of_step hi hs
    refine Bsd.nums ?_ (spares_timerInterrupt inert_numbers)
    obtain ⟨hw, halive⟩ := h.before
    have hd := spares_beforeMlfqsTick (s := s) inert_numbers
    have hrun := (running_beforeMlfqsTick hi.running).1
    have hm : NiceIn { s with ticks := s.ticks + 1 } := hok.nice
    rw [if_pos hok.mlfqs]
    exact (mlfqsNumbers_eq hn hrun hw (hm.nums hd) (hd.allList.length_le.trans hok.few) halive).2.1.nums
      (spares_threadMlfqsTick inert_numbers)
  · exact step_of_change (P := Bsd n) hi hs h
      fun d d' hd hc => hd.change (fun hk => ha (cause_eq_tick.1 hk)) hc

theorem bsd_of_reachable (hn : n ≤ 500) (h : sys.ReachableVia (fun s _ => Tame n s) s) : Bsd n s := by
  have hall : Inv s ∧ Bsd n s := by
    refine h.invariant (P := fun s => Inv s ∧ Bsd n s) ?_ ?_
    · rintro x ⟨aging, mlfqs, value, rfl⟩
      have hzero : ∀ t r, (initial aging mlfqs value).threads t = some r → r.recentCpu = 0 := by
        intro t r hr
        simp only [initial] at hr
        split at hr
        · exact Option.some.inj hr ▸ rfl
        · split at hr
          · exact Option.some.inj hr ▸ rfl
          · cases hr
      refine ⟨Inv.initial, ⟨⟨le_rfl, by positivity⟩, fun t r hr => ?_, fun t r hr => ?_⟩, fun t _ r hr => ?_⟩
      · rw [hzero t r hr]
        omega
      · rw [hzero t r hr]
        omega
      · rw [hzero t r hr]
        show (0 : ℤ) ≤ (240 * n + 20 + 0 % 100) * 16384
        omega
    · exact fun x a y hx hok hs => ⟨hx.1.step hs, hx.2.step hn hx.1 hok hs⟩
  exact hall.2

/-- **The BSD scheduler's numbers never overflow**: they are within their bounds in every state, the next
`thread_mlfqs_tick` succeeds with checked arithmetic and gives every thread but the idle thread a priority
in range, and so does `thread_calc_priority` for every thread and every nice value. -/
theorem bsd_bounded (hn : n ≤ 500) (h : sys.ReachableVia (fun s _ => Tame n s) s) (hs : Tame n s) :
    (0 ≤ s.loadAvg ∧ s.loadAvg ≤ n * 2 ^ 14) ∧
    (∀ t r, s.threads t = some r → |r.recentCpu| ≤ (240 * n + 120) * 2 ^ 14) ∧
    (threadMlfqsTick? (beforeMlfqsTick s) = some (threadMlfqsTick (beforeMlfqsTick s)) ∧
      ((beforeMlfqsTick s).ticks % timeSlice = 0 → ∀ t ∈ (beforeMlfqsTick s).allList,
        (beforeMlfqsTick s).idleThread ≠ some t →
          priMin ≤ (threadMlfqsTick (beforeMlfqsTick s)).prio t ∧
          (threadMlfqsTick (beforeMlfqsTick s)).prio t ≤ priMax)) ∧
    (∀ t r m, s.threads t = some r → -20 ≤ m → m ≤ 20 →
      calcPriority? r.recentCpu m = some (calcPriority r.recentCpu m) ∧
      priMin ≤ calcPriority r.recentCpu m ∧ calcPriority r.recentCpu m ≤ priMax) := by
  have hb := bsd_of_reachable hn h
  have hi : Inv s := Inv.reachable (h.mono fun _ _ _ => trivial)
  obtain ⟨hw, halive⟩ := hb.before
  have hd := spares_beforeMlfqsTick (s := s) inert_numbers
  have hrun := (running_beforeMlfqsTick hi.running).1
  have hm : NiceIn { s with ticks := s.ticks + 1 } := hs.nice
  refine ⟨hb.load, fun t r hr => ?_,
    ⟨?_, fun ht t htm hidle => threadMlfqsTick_prio hrun ht htm hidle⟩, fun t r m hr hlo hhi => ?_⟩
  · have hlow := hb.low t r hr
    have hhigh := hb.high t r hr
    rw [abs_le]
    constructor <;> omega
  · exact threadMlfqsTick_eq_some hn hrun hw (hm.nums hd) (hd.allList.length_le.trans hs.few) halive
  · exact ⟨calcPriority?_bounds hn ⟨hb.low t r hr, hb.high t r hr⟩ ⟨hlo, hhi⟩, calcPriority_range _ _⟩

end Tick

instance (n : ℕ) (s : St) : Decidable (Tame n s) :=
  decidable_of_iff (s.mlfqs = true ∧ s.allList.length ≤ n ∧
      ∀ t ∈ s.allList, ∀ r ∈ s.threads t, -20 ≤ r.nice ∧ r.nice ≤ 20)
    ⟨fun h => ⟨h.1, h.2.1, h.2.2⟩, fun h => ⟨h.mlfqs, h.few, h.nice⟩⟩

/-- The initial thread takes the nice value 20, creates a thread and runs for three ticks. -/
def niceActs : List Act :=
  List.replicate 7 Act.run ++ Act.call (.setNice 20) :: List.replicate 2 Act.run ++
    Act.call (.threadCreate 2 31) :: List.replicate 9 Act.run ++ List.replicate 3 Act.tick

theorem bsd_bounded_niceActs : ∃ s, sys.ReachableVia (fun s _ => Tame 3 s) s ∧ Tame 3 s ∧
    (s.threads 0).map Thread.recentCpu = some (3 * 2 ^ 14) ∧
    threadMlfqsTick? (beforeMlfqsTick s) = some (threadMlfqsTick (beforeMlfqsTick s)) := by
  obtain ⟨s, hr, hs, hc⟩ := System.exists_of_runWith
    (fun s => Tame 3 s ∧ (s.threads 0).map Thread.recentCpu = some (3 * 2 ^ 14))
    (show (sys.runWith (fun s _ => decide (Tame 3 s)) (initial false true fun _ => 0)
      niceActs).any _ = true by decide +kernel)
  have himp : ∀ s (a : Act), decide (Tame 3 s) = true → Tame 3 s := fun _ _ => of_decide_eq_true
  have hreach : sys.ReachableVia (fun s _ => Tame 3 s) s :=
    System.reachableVia_of_runWith himp ⟨false, true, _, rfl⟩ hr
  exact ⟨s, hreach, hs, hc, (bsd_bounded (by decide) hreach hs).2.2.1.1⟩

end Threads
end Pintos
