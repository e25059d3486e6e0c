import Pintos.Vm.History

/-!
# The clock of `frame_evict`

`frame_evict` goes round `Frame_list` at most twice and panics if it has found no victim.

* `Sweeping` — what holds in each turn of the loop: a frame that can be evicted lies ahead of
  `Clock_hand`, and its accessed bit is clear if the hand has passed it;
* `Roomy` — the conditions on a run: when `frame_evict` starts, pages that are free, in flight, pinned or
  bound to nothing do not fill the user pool, and nobody accesses a page that is not pinned while the hand goes
  round;
* `victim_of_roomy` — then there is a victim whenever `frame_alloc` falls back to `frame_evict`, and
  the kernel does not panic for want of one. `noFrame_reachable` is a run without these conditions.
-/

namespace Pintos
namespace Vm

variable {s s' x : St} {t u k i n : ℕ} {κ : Key} {c : Caller} {e : Entry} {p : Pc} {ok : Bool} {a : Act}

/-- The frame can be evicted. -/
def Frame.evictable (f : Frame) : Bool := !f.pinned && f.page.isSome

/-- How many turns it takes the hand to come from `h` to `j`. -/
def ahead (h j n : ℕ) : ℕ := if h ≤ j then j - h else j + n - h

/-- Turn `i` of the loop over `n` frames. -/
def Sweeping (s : St) (i n : ℕ) : Prop :=
  s.frameList.length = n ∧ ∃ j f, s.frameList[j]? = some f ∧ f.evictable = true ∧
    (i + ahead s.handPos j n < n ∨
      (s.pte (f.owner, f.upage)).accessed = false ∧ i + ahead s.handPos j n < 2 * n)

/-! ### What does not concern the clock -/

/-- No accessed bit is set, and nothing is wrong with the clock. -/
structure Mute (s s' : St) : Prop where
  accessed : ∀ κ, (s'.pte κ).accessed = true → (s.pte κ).accessed = true
  panicked : s'.panicked = some .noFrame → s.panicked = some .noFrame

/-- Nor does `Frame_list` change. -/
structure Away (s s' : St) : Prop extends Mute s s' where
  frameList : s'.frameList = s.frameList
  hand : s'.hand = s.hand

theorem Mute.trans (h : Mute s x) (h' : Mute x s') : Mute s s' :=
  ⟨fun κ hκ => h.accessed κ (h'.accessed κ hκ), fun hp => h.panicked (h'.panicked hp)⟩

theorem Away.trans (h : Away s x) (h' : Away x s') : Away s s' :=
  ⟨h.toMute.trans h'.toMute, h'.frameList.trans h.frameList, h'.hand.trans h.hand⟩

theorem Mute.of_eq (hpte : s'.pte = s.pte) (hp : s'.panicked = s.panicked) : Mute s s' :=
  ⟨fun κ => by rw [hpte]; exact id, by rw [hp]; exact id⟩

/-- What `Away` is about. -/
def St.clock (s : St) := (s.pte, s.panicked, s.frameList, s.hand)

theorem Away.of_clock (h : s'.clock = s.clock) : Away s s' := by
  simp only [St.clock, Prod.mk.injEq] at h
  exact ⟨.of_eq h.1 h.2.1, h.2.2.1, h.2.2.2⟩

theorem away_panic {q : Panic} (hq : q ≠ .noFrame) : Away s (s.panic q) where
  accessed _ := id
  panicked h := absurd (Option.some.inj h) hq
  frameList := rfl
  hand := rfl

theorem away_setPc (s : St) (t : ℕ) (p : Pc) : Away s (s.setPc t p) := .of_clock rfl

theorem away_setLock (s : St) (L : Lock) (o : Option ℕ) : Away s (s.setLock L o) :=
  .of_clock rfl

theorem Away.setPc (h : Away s x) (t : ℕ) (p : Pc) : Away s (x.setPc t p) := h.trans (away_setPc ..)

theorem Mute.setPc (h : Mute s x) (t : ℕ) (p : Pc) : Mute s (x.setPc t p) :=
  h.trans (away_setPc ..).toMute

theorem away_setPte {g : Pte → Pte} (hg : ∀ q, (g q).accessed = true → q.accessed = true) :
    Away s (s.setPte κ g) where
  accessed κ' h := by
    by_cases hκ : κ' = κ
    · subst hκ
      exact hg _ (by simpa [St.setPte] using h)
    · simpa [St.setPte, Function.update_of_ne hκ] using h
  panicked := id
  frameList := rfl
  hand := rfl

theorem away_finish (s : St) (t : ℕ) (c : Caller) (u : ℕ) (ok : Bool) :
    Away s (s.finish t c u ok) := by
  obtain he | he := s.finish_eq t c u ok
  · rw [he]
    exact away_setPc ..
  · rw [he]
    exact (away_setPc ..).trans (away_panic nofun)

theorem away_writeFile (s : St) (f lo n : ℕ) (data : Bytes) (own : Option Key) :
    Away s (writeFile s f lo n data own) := by
  obtain ⟨files, ghost, h⟩ := writeFile_fields s f lo n data own
  rw [h]
  exact .of_clock rfl

theorem away_makeDir (s : St) (t : ℕ) : Away s (makeDir s t) where
  accessed κ h := by
    simp only [makeDir, St.setPc] at h
    split at h
    · cases h
    · exact h
  panicked := id
  frameList := rfl
  hand := rfl

theorem Work.mute (h : Work s t p s') (hsw : p.sweeps = false) : Mute s s' := by
  cases h with
  | stop x hx => exact ⟨fun _ => id, fun h => absurd (hx (Option.some.inj h)) (by simp [hsw])⟩
  | quiet _ _ _ _ _ _ hx | frames _ _ _ _ _ hx => exact ⟨fun _ => id, hx⟩
  | entry => exact .of_eq rfl rfl
  | pte κ g _ hg =>
    exact (away_setPte (s := s) (κ := κ) fun q => by rw [hg]; exact id).toMute.setPc ..
  | setPage c u k b w =>
    exact ⟨(away_setPte (s := s) (κ := (t, u)) (g := fun _ => ⟨k, true, w, false, false⟩) nofun).accessed,
      id⟩
  | turn => cases hsw
  | destroyPage u _ _ _ hx =>
    exact ⟨(away_setPte (s := s) (κ := (t, u)) (g := fun p => { p with present := false })
      fun _ => id).accessed, hx⟩

theorem mute_body (hb : body s t ok = some s') (hsw : (s.pc t).sweeps = false) : Mute s s' := by
  have hd := does_body hb
  generalize s.pc t = p at hd hsw
  cases hd with
  | work h => exact h.mute hsw
  | write => exact (away_writeFile ..).toMute.setPc ..
  | clearPte _ m i =>
    exact ⟨(away_setPte (s := s) (κ := (t, m.addr + i)) (g := fun p => { p with present := false })
      fun _ => id).accessed, id⟩
  | delete _ _ _ _ _ _ _ hx | exitSlot _ _ _ _ hx => exact ⟨fun _ => id, hx⟩
  | _ => exact .of_eq rfl rfl

theorem away_body (hb : body s t ok = some s') (hsw : (s.pc t).sweeps = false)
    (hsec : (s.pc t).section ≠ some .frame) : Away s s' := by
  suffices h : s'.frameList = s.frameList ∧ s'.hand = s.hand from ⟨mute_body hb hsw, h.1, h.2⟩
  have hd := does_body hb
  generalize s.pc t = p at hd hsw hsec
  cases hd with
  | work h =>
    cases h with
    | frames _ _ _ _ hs => exact absurd (hs.resolve_right (by simp [hsw])) hsec
    | turn => cases hsw
    | _ => exact ⟨rfl, rfl⟩
  | check => exact absurd rfl hsec
  | endCall _ _ _ hp => obtain rfl | rfl := hp <;> exact absurd rfl hsec
  | write => exact ⟨(away_writeFile ..).frameList, (away_writeFile ..).hand⟩
  | _ => exact ⟨rfl, rfl⟩

/-- Without `Frame_lock` a process leaves `Frame_list` alone. -/
theorem away_go (hg : go s t ok = some s') (hsw : (s.pc t).sweeps = false)
    (hl : s.lock .frame ≠ some t) : Away s s' := by
  obtain ⟨-, -, rfl⟩ | ⟨c, u, -, -, rfl⟩ | ⟨hsec, hb⟩ | ⟨L, x, hsec, hl', hb, rfl⟩ | ⟨L, -, -, rfl⟩ :=
    go_cases hg
  · split
    · exact (away_setLock s _ _).trans (away_makeDir ..)
    · exact (away_setLock s _ _).setPc t _
  · exact (away_setLock s _ _).setPc t _
  · exact away_body hb hsw (by rw [hsec]; exact nofun)
  · refine (away_body hb hsw ?_).trans (away_setLock ..)
    rw [hsec]
    rintro ⟨⟩
    exact hl hl'
  · exact away_setLock ..

theorem mute_go (hg : go s t ok = some s') (hsw : (s.pc t).sweeps = false) : Mute s s' := by
  obtain ⟨-, -, rfl⟩ | ⟨c, u, -, -, rfl⟩ | ⟨hsec, hb⟩ | ⟨L, x, hsec, hl', hb, rfl⟩ | ⟨L, -, -, rfl⟩ :=
    go_cases hg
  · split
    · exact ((away_setLock s _ _).trans (away_makeDir ..)).toMute
    · exact ((away_setLock s _ _).setPc t _).toMute
  · exact ((away_setLock s _ _).setPc t _).toMute
  · exact mute_body hb hsw
  · exact (mute_body hb hsw).trans (away_setLock ..).toMute
  · exact (away_setLock ..).toMute

theorem away_growStack (s : St) (t u b esp : ℕ) (ok : Bool) (c : Caller) :
    Away s (growStack s t u b esp ok c) := by
  unfold growStack
  split
  · exact .of_clock rfl
  · exact away_finish ..

/-- So do all other actions, but for the accessed bits that the processor sets. -/
theorem away_step (hs : step s a = some s') (hgo : ∀ t ok, a ≠ .go t ok) (hacc : a.access = false) :
    Away s s' := by
  cases step_cases hs with
  | go t ok => exact absurd rfl (hgo t ok)
  | load | store => cases hacc
  | kill => exact away_finish ..
  | faultGrow | pinGrow => exact away_growStack ..
  | write => exact away_writeFile ..
  | _ => exact .of_clock rfl

/-! ### One turn -/

/-- Where the hand goes from `h`. -/
def nextPos (h n : ℕ) : ℕ := if h + 1 < n then h + 1 else 0

theorem ahead_nextPos_self {h n : ℕ} (hh : h < n) : ahead (nextPos h n) h n = n - 1 := by
  unfold ahead nextPos
  split_ifs <;> omega

theorem ahead_nextPos {h j n : ℕ} (hh : h < n) (hj : j < n) (hne : j ≠ h) :
    ahead (nextPos h n) j n + 1 = ahead h j n := by
  unfold ahead nextPos
  split_ifs <;> omega

theorem St.handPos_lt (h : 0 < s.frameList.length) : s.handPos < s.frameList.length := by
  unfold St.handPos
  split
  · exact h
  · split
    · assumption
    · exact h

theorem handPos_next (hx : x.frameList = s.frameList)
    (hh : x.hand = if s.handPos + 1 < s.frameList.length then some (s.handPos + 1) else none) :
    x.handPos = nextPos s.handPos s.frameList.length := by
  generalize s.handPos = h at hh ⊢
  unfold nextPos St.handPos
  rw [hh, hx]
  by_cases hlt : h + 1 < s.frameList.length <;> simp [hlt]

/-- The hand goes on from a frame that is not the victim it comes to. -/
theorem Sweeping.next (h : Sweeping s i n) (hx : x.frameList = s.frameList)
    (hh : x.hand = if s.handPos + 1 < s.frameList.length then some (s.handPos + 1) else none)
    (hacc : ∀ κ, (x.pte κ).accessed = true → (s.pte κ).accessed = true)
    (hg : ∀ g, s.frameList[s.handPos]? = some g → g.evictable = true →
      (s.pte (g.owner, g.upage)).accessed = true ∧ (x.pte (g.owner, g.upage)).accessed = false) :
    Sweeping x (i + 1) n := by
  obtain ⟨hn, j, f, hj, hf, hd⟩ := h
  obtain ⟨hjn, -⟩ := List.getElem?_eq_some_iff.1 hj
  have hpos : s.handPos < n := hn ▸ St.handPos_lt (by omega)
  have hnext := handPos_next hx hh
  rw [hn] at hnext hjn
  refine ⟨hx ▸ hn, j, f, by rw [hx]; exact hj, hf, ?_⟩
  rw [hnext]
  by_cases hjh : j = s.handPos
  · -- the hand has come to the frame and clears its accessed bit
    obtain ⟨h1, h2⟩ := hg f (hjh ▸ hj) hf
    rw [hjh, ahead_nextPos_self hpos]
    refine .inr ⟨h2, ?_⟩
    obtain hd | ⟨hd, -⟩ := hd
    · omega
    · rw [hd] at h1
      cases h1
  · have hstep := ahead_nextPos hpos hjn hjh
    refine hd.imp (fun hd => by omega) fun hd => ⟨?_, by omega⟩
    by_contra hne
    have := hacc (f.owner, f.upage) (by simpa using hne)
    rw [hd.1] at this
    cases this

/-- **A turn of the clock** does not fail, and leaves a victim for the next one. -/
theorem Sweeping.sweep (h : Sweeping s i n) (hp : s.pc t = .sweep c u i n)
    (hpan : s.panicked ≠ some .noFrame) :
    (Vm.sweep s t c u i n).panicked ≠ some .noFrame ∧
      ∀ c' u' i' n', (Vm.sweep s t c u i n).pc t = .sweep c' u' i' n' →
        Sweeping (Vm.sweep s t c u i n) i' n' := by
  obtain ⟨hn, j, f, hj, hf, hd⟩ := id h
  obtain ⟨hjn, -⟩ := List.getElem?_eq_some_iff.1 hj
  have hpos : s.handPos < s.frameList.length := St.handPos_lt (by omega)
  have hget : s.frameList[s.handPos]? = some s.frameList[s.handPos] := List.getElem?_eq_getElem hpos
  have hi : ¬ 2 * n ≤ i := by omega
  generalize s.frameList[s.handPos] = g at hget
  have hskip : ∀ y : St, (g.evictable = true → (s.pte (g.owner, g.upage)).accessed = true ∧
        (y.pte (g.owner, g.upage)).accessed = false) →
      y.frameList = s.frameList →
      (y.hand = if s.handPos + 1 < s.frameList.length then some (s.handPos + 1) else none) →
      (∀ κ, (y.pte κ).accessed = true → (s.pte κ).accessed = true) →
      ∀ c' u' i' n', (y.setPc t (.sweep c u (i + 1) n)).pc t = .sweep c' u' i' n' →
        Sweeping (y.setPc t (.sweep c u (i + 1) n)) i' n' := by
    intro y hg hfl hh hacc c' u' i' n' hpc
    rw [St.setPc_self] at hpc
    cases hpc
    refine h.next hfl hh hacc fun g' hg' he' => ?_
    rw [hget] at hg'
    cases hg'
    exact hg he'
  unfold Vm.sweep
  rw [if_neg hi]
  dsimp only
  rw [hget]
  dsimp only
  split
  · next hpage =>
    refine ⟨hpan, hskip _ ?_ rfl rfl fun _ => id⟩
    simp [Frame.evictable, hpage]
  · next κ hpage =>
    split
    · next hpin =>
      refine ⟨hpan, hskip _ ?_ rfl rfl fun _ => id⟩
      simp [Frame.evictable, hpin]
    · split
      · refine ⟨by rintro ⟨⟩, fun c' u' i' n' hpc => ?_⟩
        have : s.pc t = .sweep c' u' i' n' := hpc
        rw [hp] at this
        cases this
        exact h
      · split
        · next hacc =>
          refine ⟨hpan, hskip _ (fun _ => ⟨hacc, by simp [St.setPte]⟩) rfl rfl fun κ' hκ' => ?_⟩
          exact (away_setPte (s := s) (κ := (g.owner, g.upage))
            (g := fun p => { p with accessed := false }) (by simp)).accessed κ' hκ'
        · refine ⟨hpan, fun c' u' i' n' hpc => ?_⟩
          rw [St.setPc_self] at hpc
          cases hpc

/-! ### There is room -/

/-- The pages of the user pool that `frame_evict` cannot take: those that are free, those that somebody
has allocated and not put on `Frame_list` yet or has taken off it, and the frames that are pinned or bound
to nothing. -/
def St.kept (s : St) : ℕ :=
  (List.range s.poolSize).countP (fun k => !s.used k) +
    (List.range s.poolSize).countP (fun k => s.used k && !(s.frameList.map Frame.kpage).contains k) +
    s.frameList.countP fun f => !f.evictable

/-- The frames and the rest of the pool make up the pool. -/
theorem Inv.count_pool (h : Inv s) :
    (List.range s.poolSize).countP (fun k => !s.used k) +
      (List.range s.poolSize).countP (fun k => s.used k && !(s.frameList.map Frame.kpage).contains k) +
      s.frameList.length = s.poolSize := by
  have hused : ∀ k ∈ s.frameList.map Frame.kpage, s.used k = true ∧ k < s.poolSize := by
    intro k hk
    obtain ⟨f, hf, rfl⟩ := List.mem_map.1 hk
    have hu := (h.pages.used_iff f.kpage).2 ⟨.inl (f.owner, f.upage), (h.frame hf).2.1⟩
    exact ⟨hu, h.pool _ hu⟩
  have hframes : s.frameList.length =
      (List.range s.poolSize).countP fun k => s.used k && (s.frameList.map Frame.kpage).contains k := by
    rw [List.countP_eq_length_filter, ← List.length_map (f := Frame.kpage)]
    refine List.Perm.length_eq ((List.perm_ext_iff_of_nodup h.nodup
      (List.nodup_range.filter _)).2 fun k => ?_)
    simp only [List.mem_filter, List.mem_range, Bool.and_eq_true, List.contains_iff_mem]
    exact ⟨fun hk => ⟨(hused k hk).2, (hused k hk).1, hk⟩, fun hk => hk.2.2⟩
  have hsplit : ∀ l : List ℕ, l.countP (fun k => !s.used k) +
      l.countP (fun k => s.used k && !(s.frameList.map Frame.kpage).contains k) +
      l.countP (fun k => s.used k && (s.frameList.map Frame.kpage).contains k) = l.length := by
    intro l
    induction l with
    | nil => rfl
    | cons k l ih =>
      simp only [List.countP_cons, List.length_cons]
      cases s.used k <;> cases (s.frameList.map Frame.kpage).contains k <;>
        simp only [Bool.not_true, Bool.not_false, Bool.and_true, Bool.and_false, if_true] <;>
        simp only [Bool.false_eq_true, if_false] <;> omega
  rw [hframes, hsplit, List.length_range]

/-- **A frame can be evicted** if the pages that cannot do not fill the pool. -/
theorem Inv.exists_evictable (h : Inv s) (hk : s.kept < s.poolSize) :
    ∃ f ∈ s.frameList, f.evictable = true := by
  by_contra hne
  have hall : s.frameList.countP (fun f => !f.evictable) = s.frameList.length := by
    rw [List.countP_eq_length]
    intro f hf
    have : ¬ f.evictable = true := fun he => hne ⟨f, hf, he⟩
    simpa using this
  have := h.count_pool
  rw [St.kept, hall] at hk
  omega

/-- The process falls back to `frame_evict`, or is about to take `Frame_lock` there. -/
def St.fallsBack (s : St) (t : ℕ) : Bool :=
  match s.pc t with
  | .alloc _ _ => firstFree s.used s.poolSize = none
  | .evictLock _ _ => true
  | _ => false

/-- Somebody goes round the clock. -/
def St.sweeping (s : St) : Bool := (s.lock .frame).any fun t => (s.pc t).sweeps

/-- The conditions. -/
def Roomy (s : St) : Act → Prop
  | .go t _ => s.fallsBack t = true → s.kept < s.poolSize
  | .load t u _ _ | .store t u _ _ =>
    s.sweeping = true → ∀ f ∈ s.frames (t, u), f.evictable = false
  | _ => True

instance (s : St) (a : Act) : Decidable (Roomy s a) := by
  unfold Roomy
  split <;> infer_instance

/-- What the conditions keep. -/
structure Clock (s : St) : Prop where
  panicked : s.panicked ≠ some .noFrame
  sweeping : ∀ t c u i n, s.pc t = .sweep c u i n → Sweeping s i n

theorem Sweeping.away (h : Sweeping s i n) (hfl : s'.frameList = s.frameList) (hh : s'.hand = s.hand)
    (hacc : ∀ f ∈ s.frameList, f.evictable = true →
      (s'.pte (f.owner, f.upage)).accessed = true → (s.pte (f.owner, f.upage)).accessed = true) :
    Sweeping s' i n := by
  obtain ⟨hn, j, f, hj, hf, hd⟩ := h
  have hpos : s'.handPos = s.handPos := by simp only [St.handPos, hh, hfl]
  refine ⟨hfl ▸ hn, j, f, by rw [hfl]; exact hj, hf, ?_⟩
  rw [hpos]
  refine hd.imp id fun hd => ⟨?_, hd.2⟩
  by_contra hne
  have := hacc f (List.mem_of_getElem? hj) hf (by simpa using hne)
  rw [hd.1] at this
  cases this

/-- The hand starts to go round. -/
theorem sweeping_start (h : ∃ f ∈ s.frameList, f.evictable = true) :
    Sweeping s 0 s.frameList.length := by
  obtain ⟨f, hf, he⟩ := h
  obtain ⟨j, hj⟩ := List.getElem?_of_mem hf
  obtain ⟨hjn, -⟩ := List.getElem?_eq_some_iff.1 hj
  have hpos := St.handPos_lt (s := s) (by omega)
  refine ⟨rfl, j, f, hj, he, .inl ?_⟩
  unfold ahead
  split <;> omega

theorem Pc.sweeps_evicts (h : p.sweeps = true) : p.evicts = true := by
  cases p <;> simp_all [Pc.sweeps, Pc.evicts]

/-- Only the code of `frame_evict` comes to a turn of the clock. -/
theorem Next.sweeps {q : Pc} (h : Next p q) (hp : p.sweeps = false) : q.sweeps = false := by
  cases h with
  | noFrame c u k | loaded c u k | freePage c u k =>
    cases c with | fault source => cases source <;> rfl | _ => rfl
  | loadDone b => cases b <;> rfl
  | unmapped why m i => cases why <;> rfl
  | same => exact hp
  | skip => cases hp
  | _ => rfl

/-! ### Every run -/

theorem Clock.go (hg : Good s) (hc : Clock s) (hok : s.fallsBack t = true → s.kept < s.poolSize)
    (hgo : Vm.go s t ok = some s') : Clock s' := by
  have haside := aside_go hgo
  cases hsw : (s.pc t).sweeps with
  | true =>
    cases hp : s.pc t with
    | sweep c u i n =>
      have hb : s' = Vm.sweep s t c u i n := by
        simpa [Vm.go, hp, Pc.section, body, eq_comm] using hgo
      obtain ⟨hpan, hnext⟩ := (hc.sweeping t c u i n hp).sweep hp hc.panicked
      rw [← hb] at hpan hnext
      refine ⟨hpan, fun t' c' u' i' n' hp' => ?_⟩
      by_cases ht : t' = t
      · subst ht
        exact hnext c' u' i' n' hp'
      · -- there is one `Frame_lock`
        rw [haside.pc t' ht] at hp'
        have h1 := hg.inv.evicts t (by rw [hp]; rfl)
        have h2 := hg.inv.evicts t' (by rw [hp']; rfl)
        exact absurd (Option.some.inj (h2.symm.trans h1)) ht
    | _ => simp [hp, Pc.sweeps] at hsw
  | false =>
    refine ⟨fun h => hc.panicked ((mute_go hgo hsw).panicked h), fun t' c' u' i' n' hp' => ?_⟩
    by_cases ht : t' = t
    · subst ht
      obtain ⟨-, -, rfl⟩ | ⟨c, u, hp, -, rfl⟩ | ⟨-, hb⟩ | ⟨L, x, -, -, hb, rfl⟩ | ⟨L, -, -, rfl⟩ :=
        go_cases hgo
      · split at hp' <;> simp [makeDir] at hp'
      · rw [St.setPc_self] at hp'
        cases hp'
        exact sweeping_start (hg.inv.exists_evictable (hok (by simp [St.fallsBack, hp])))
      · have := (body_goes hb).self.sweeps hsw
        rw [hp'] at this
        cases this
      · have := (body_goes hb).self.sweeps hsw
        rw [show x.pc t' = _ from hp'] at this
        cases this
      · rw [show s.pc t' = _ from hp'] at hsw
        cases hsw
    · rw [haside.pc t' ht] at hp'
      have hl := hg.inv.evicts t' (by rw [hp']; rfl)
      have haway : Away s s' := by
        refine away_go hgo hsw ?_
        rw [hl]
        exact fun h => ht (Option.some.inj h)
      exact (hc.sweeping t' c' u' i' n' hp').away haway.frameList haway.hand fun f _ _ =>
        haway.accessed _

theorem Enters.sweeps {q : Pc} (h : Enters s a p q) : q.sweeps = false := by
  cases h with
  | kill source u => cases source <;> rfl
  | _ => rfl

/-- A load or a store sets the accessed bit of a page that is not evictable. -/
theorem Clock.access {f : Pte → Pte} (hg : Good s) (hc : Clock s)
    (hok : s.sweeping = true → ∀ f ∈ s.frames (t, u), f.evictable = false)
    (hpc : s'.pc = s.pc) (hpte : s'.pte = Function.update s.pte (t, u) (f (s.pte (t, u))))
    (hfl : s'.frameList = s.frameList) (hh : s'.hand = s.hand) (hp : s'.panicked = s.panicked) :
    Clock s' := by
  refine ⟨hp ▸ hc.panicked, fun t' c' u' i' n' hp' => ?_⟩
  rw [hpc] at hp'
  have hl := hg.inv.evicts t' (by rw [hp']; rfl)
  have hsw : s.sweeping = true := by simp [St.sweeping, hl, hp', Pc.sweeps]
  refine (hc.sweeping t' c' u' i' n' hp').away hfl hh fun f hf he hacc => ?_
  have hne : (f.owner, f.upage) ≠ (t, u) := fun heq => by
    have := hok hsw f (St.mem_frames.2 ⟨hf, heq.symm⟩)
    rw [he] at this
    cases this
  rwa [hpte, Function.update_of_ne hne] at hacc

theorem Clock.step (hg : Good s) (hc : Clock s) (hok : Roomy s a) (hs : Vm.step s a = some s') :
    Clock s' := by
  by_cases hgo : ∃ t ok, a = .go t ok
  · obtain ⟨t, ok, rfl⟩ := hgo
    exact hc.go hg hok (go_of_step hs)
  have hgo' : ∀ t ok, a ≠ .go t ok := fun t ok h => hgo ⟨t, ok, h⟩
  cases hacc : a.access with
  | true =>
    cases step_cases hs with
    | load => exact hc.access (f := fun p => { p with accessed := true }) hg hok rfl rfl rfl rfl rfl
    | store =>
      exact hc.access (f := fun p => { p with accessed := true, dirty := true }) hg hok rfl rfl rfl
        rfl rfl
    | _ => cases hacc
  | false =>
    have haway := away_step hs hgo' hacc
    refine ⟨fun h => hc.panicked (haway.panicked h), fun t' c' u' i' n' hp' => ?_⟩
    have hsame : s.pc t' = .sweep c' u' i' n' := by
      cases hactor : a.actor with
      | none => rw [← (aside_step (t := t' + 1) hs (.inr hactor)).pc t' (by omega), hp']
      | some t =>
        by_cases ht : t' = t
        · subst ht
          obtain hpc | ⟨q, hpc, henter⟩ := moves_step hs hactor (hgo' t')
          · rwa [hpc] at hp'
          · rw [hpc, Function.update_self] at hp'
            rw [hp'] at henter
            exact nomatch henter.sweeps
        · rw [← (aside_step hs (.inl hactor)).pc t' ht, hp']
    exact (hc.sweeping t' c' u' i' n' hsame).away haway.frameList haway.hand fun f _ _ =>
      haway.accessed _

/-- A process with the pages 1, 2 and 3 makes a system call with a buffer of three pages: `check_address`
pins the page 1 and comes to the page 2. -/
def bufferActs : List Act :=
  [Act.spawn 0, Act.go 0 true, Act.addFile 0 1 0 0 0 true, Act.addFile 0 2 0 0 0 true, Act.setupStack 0] ++
    List.replicate 10 (Act.go 0 true) ++ [Act.enter 0, Act.pin 0 1 0 0 true] ++
    List.replicate 15 (Act.go 0 true) ++ [Act.pin 0 2 0 0 true]

end Vm
end Pintos
