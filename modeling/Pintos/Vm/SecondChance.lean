import Pintos.Vm.FrameTable

/-!
# The second chance

`frame_evict` goes through `Frame_list` from `Clock_hand` on, and round again. It passes over frames that are
pinned or still loading, gives a frame whose accessed bit is set a second chance, and takes the first other
one.

* `victim`, `passed` — what it should take, and what it passes over before;
* `Turns` — the loop, while the others run and no accessed bit is set;
* `Round` — what holds after a number of turns: the hand has gone on by that many elements, and the evictable
  frames among them have lost their accessed bits;
* `clock_second_chance` — from every state of a run the loop ends with the victim.
-/

namespace Pintos
namespace Vm

open Cursor

variable {s s' : St} {t u k i n addr : ℕ} {κ : Key} {a : Act} {ok : Bool} {c : Caller}

/-! ### Accessed bits -/

/-- An accessed bit stays set. -/
structure KeepsBit (κ : Key) (s s' : St) : Prop where
  accessed : (s.pte κ).accessed = true → (s'.pte κ).accessed = true

namespace KeepsBit

variable {x : St}

theorem trans (h : KeepsBit κ s x) (h' : KeepsBit κ x s') : KeepsBit κ s s' :=
  ⟨fun hacc => h'.accessed (h.accessed hacc)⟩

theorem of_pte (h : s'.pte = s.pte) : KeepsBit κ s s' := ⟨by rw [h]; exact id⟩

theorem after (h : KeepsBit κ x s') (hx : x.pte = s.pte) : KeepsBit κ s s' := (of_pte hx).trans h

theorem setPc (h : KeepsBit κ s x) (t : ℕ) (p : Pc) : KeepsBit κ s (x.setPc t p) := ⟨h.accessed⟩

theorem setLock (h : KeepsBit κ s x) (L : Lock) (o : Option ℕ) : KeepsBit κ s (x.setLock L o) :=
  ⟨h.accessed⟩

theorem setPte (κ' : Key) {f : Pte → Pte} (hf : ∀ q, q.accessed = true → (f q).accessed = true) :
    KeepsBit κ s (s.setPte κ' f) := by
  refine ⟨fun h => ?_⟩
  by_cases hκ : κ = κ'
  · subst hκ
    simpa [St.setPte] using hf _ h
  · simpa [St.setPte, hκ] using h

theorem finish (s : St) (t : ℕ) (c : Caller) (u : ℕ) (ok : Bool) : KeepsBit κ s (s.finish t c u ok) := by
  obtain he | he := s.finish_eq t c u ok <;> rw [he] <;> exact of_pte rfl

theorem writeFile (s : St) (f lo n : ℕ) (data : Bytes) (own : Option Key) :
    KeepsBit κ s (Vm.writeFile s f lo n data own) := by
  obtain ⟨files, ghost, h⟩ := writeFile_fields s f lo n data own
  exact of_pte (by rw [h])

end KeepsBit

/-- Only `pagedir_set_page` and the clock clear an accessed bit. -/
theorem keepsBit_body (hb : body s t ok = some s') (hsw : (s.pc t).sweeps = false)
    (hload : ∀ c k st, s.pc t = .load c κ.2 k st → κ.1 ≠ t) : KeepsBit κ s s' := by
  have hd := does_body hb
  generalize s.pc t = p at hd hsw hload
  cases hd with
  | work h =>
    cases h with
    | pte κ' g _ hg => exact (KeepsBit.setPte κ' fun q hq => (hg q).trans hq).setPc ..
    | setPage c u k b w st =>
      have hκ : κ ≠ (t, u) := by
        rintro rfl
        exact hload c k _ rfl rfl
      exact ⟨fun h => by simpa [St.setPte, St.setPc, hκ] using h⟩
    | turn => cases hsw
    | destroyPage u => exact KeepsBit.after (.setPte _ fun _ => id) rfl
    | _ => exact .of_pte rfl
  | write => exact (KeepsBit.writeFile ..).setPc ..
  | clearPte _ m i =>
    have h : KeepsBit κ s (s.setPte (t, m.addr + i) fun p => { p with present := false }) :=
      .setPte _ fun _ => id
    exact ⟨h.accessed⟩
  | _ => exact .of_pte rfl

theorem keepsBit_go (hg : go s t ok = some s') (hsw : (s.pc t).sweeps = false)
    (hload : ∀ c k st, s.pc t = .load c κ.2 k st → κ.1 ≠ t) (hstart : s.pc t = .start → κ.1 ≠ t) :
    KeepsBit κ s s' := by
  obtain ⟨hp, -, rfl⟩ | ⟨c, u, -, -, rfl⟩ | ⟨-, hb⟩ | ⟨L, x, -, -, hb, rfl⟩ | ⟨L, -, -, rfl⟩ := go_cases hg
  · split
    · refine ⟨fun h => ?_⟩
      simpa [makeDir, St.setPc, St.setLock, hstart hp] using h
    · exact .of_pte rfl
  · exact .of_pte rfl
  · exact keepsBit_body hb hsw hload
  · exact (keepsBit_body hb hsw hload).setLock ..
  · exact .of_pte rfl

theorem KeepsBit.growStack (s : St) (t u b esp : ℕ) (ok : Bool) (c : Caller) :
    KeepsBit κ s (Vm.growStack s t u b esp ok c) := by
  unfold Vm.growStack
  split
  · exact of_pte rfl
  · exact finish ..

theorem keepsBit_step (hs : step s a = some s') (hgo : ∀ t ok, a ≠ .go t ok) : KeepsBit κ s s' := by
  cases step_cases hs with
  | go t ok => exact absurd rfl (hgo t ok)
  | load => exact .setPte _ fun _ _ => rfl
  | store => exact KeepsBit.after (.setPte _ fun _ _ => rfl) rfl
  | kill => exact .finish ..
  | faultGrow | pinGrow => exact .growStack ..
  | write => exact .writeFile ..
  | _ => exact .of_pte rfl

/-! ### While somebody goes round -/

/-- What the others leave alone while `t` goes round the clock. -/
structure LeftAlone (s s' : St) (t : ℕ) : Prop where
  pc : s'.pc t = s.pc t
  frameList : s'.frameList = s.frameList
  hand : s'.hand = s.hand
  bits : ∀ f ∈ s.frameList, f.evictable = true → KeepsBit (f.owner, f.upage) s s'

/-- An evictable frame is not that of a page that its process is loading. -/
theorem Inv.not_load_of_evictable (h : Inv s) {f : Frame} (hf : f ∈ s.frameList)
    (he : f.evictable = true) {st : LoadPc} : s.pc f.owner ≠ .load c f.upage k st := by
  intro hp
  have hphase : (s.view (f.owner, f.upage)).phase = .load k st := by simp [St.view, hp, Pc.phase]
  have hagree := (h.shape (f.owner, f.upage)).agree
  simp only [View.Agree, hphase] at hagree
  have hone : s.frames (f.owner, f.upage) = [frameOf (f.owner, f.upage) k none true] := hagree.2.1
  have hmem : f ∈ s.frames (f.owner, f.upage) := St.mem_frames.2 ⟨hf, rfl⟩
  rw [hone, List.mem_singleton] at hmem
  rw [hmem] at he
  cases he

theorem pc_of_not_go (hs : step s a = some s') (hgo : ∀ t ok, a ≠ .go t ok)
    (hsw : (s.pc t).sweeps = true) : s'.pc t = s.pc t := by
  cases hactor : a.actor with
  | none => exact (aside_step (t := t + 1) hs (.inr hactor)).pc t (by omega)
  | some t' =>
    by_cases ht : t = t'
    · subst ht
      obtain hpc | ⟨q, -, henter⟩ := moves_step hs hactor (hgo t)
      · rw [hpc]
      · generalize s.pc t = p at henter hsw
        cases henter with
        | fault source | kill source => cases source <;> cases hsw
        | _ => cases hsw
    · exact (aside_step hs (.inl hactor)).pc t ht

/-- **Nobody else** works on `Frame_list`, or clears the accessed bit of an evictable frame. -/
theorem leftAlone (hg : Good s) (hsw : (s.pc t).sweeps = true) (hs : step s a = some s')
    (hne : ∀ ok, a ≠ .go t ok) : LeftAlone s s' t := by
  by_cases hgo : ∃ t' ok, a = .go t' ok
  · obtain ⟨t', ok, rfl⟩ := hgo
    have ht : t ≠ t' := by
      rintro rfl
      exact hne ok rfl
    have hg' := go_of_step hs
    have hl := hg.inv.evicts t (Pc.sweeps_evicts hsw)
    have hl' : s.lock .frame ≠ some t' := by
      rw [hl]
      exact fun h => ht (Option.some.inj h)
    have hsw' : (s.pc t').sweeps = false := by
      by_contra h
      exact hl' (hg.inv.evicts t' (Pc.sweeps_evicts (by simpa using h)))
    have haway := away_go hg' hsw' hl'
    refine ⟨(aside_go hg').pc t ht, haway.frameList, haway.hand, fun f hf he => ?_⟩
    refine keepsBit_go hg' hsw' ?_ ?_
    · rintro c k st hp rfl
      exact hg.inv.not_load_of_evictable hf he hp
    · rintro hp rfl
      have hdir := hg.inv.pagedir_of_frame hf
      rw [hg.inv.dir, hp] at hdir
      cases hdir
  · have hgo' : ∀ t ok, a ≠ .go t ok := fun t ok h => hgo ⟨t, ok, h⟩
    have hsame := Table.frameList_of_not_go hs hgo'
    exact ⟨pc_of_not_go hs hgo' hsw, hsame.1, hsame.2, fun f _ _ => keepsBit_step hs hgo'⟩

/-- Nor does the table change. -/
theorem Table.step_of_other (hg : Good s) (hsw : (s.pc t).sweeps = true) (hne : ∀ ok, a ≠ .go t ok)
    (T : Table) : T.step s addr a = some T := by
  cases a with
  | go t' ok =>
    have ht : t ≠ t' := by
      rintro rfl
      exact hne ok rfl
    have hl' : s.lock .frame ≠ some t' := by
      rw [hg.inv.evicts t (Pc.sweeps_evicts hsw)]
      exact fun h => ht (Option.some.inj h)
    simp only [Table.step]
    split
    · next hent =>
      refine body_of_away rfl ?_ ?_
      · intro hsec
        simp only [entered, hsec, Option.all_some, decide_eq_true_eq] at hent
        exact hl' hent
      · by_contra h
        exact hl' (hg.inv.evicts t' (Pc.sweeps_evicts (by simpa using h)))
    · rfl
  | _ => rfl

/-! ### One turn -/

section Turn

variable {f : Frame}

/-- The hand goes past a frame. An accessed bit that it finds set is cleared. -/
theorem sweep_pass (hi : ¬ 2 * n ≤ i) (hget : s.frameList[s.handPos]? = some f)
    (hdir : s.pagedir f.owner = true)
    (hpass : f.evictable = true → (s.pte (f.owner, f.upage)).accessed = true) :
    sweep s t c u i n = { s with
      hand := if s.handPos + 1 < s.frameList.length then some (s.handPos + 1) else none
      pte := if f.evictable then Function.update s.pte (f.owner, f.upage)
          { s.pte (f.owner, f.upage) with accessed := false }
        else s.pte }.setPc t (.sweep c u (i + 1) n) := by
  unfold sweep
  rw [if_neg hi]
  dsimp only
  rw [hget]
  dsimp only
  cases hpage : f.page with
  | none => simp [Frame.evictable, hpage]
  | some κ =>
    dsimp only
    cases hpin : f.pinned with
    | true => simp [Frame.evictable, hpage, hpin]
    | false =>
      have he : f.evictable = true := by simp [Frame.evictable, hpage, hpin]
      simp [he, hdir, hpass he, St.setPte]

/-- The hand comes to the victim. -/
theorem sweep_take (hi : ¬ 2 * n ≤ i) (hget : s.frameList[s.handPos]? = some f)
    (hdir : s.pagedir f.owner = true) (he : f.evictable = true)
    (hclear : (s.pte (f.owner, f.upage)).accessed = false) :
    ∃ κ, f.page = some κ ∧ sweep s t c u i n = { s with
      frameList := s.frameList.eraseIdx s.handPos
      hand := if s.handPos + 1 < s.frameList.length then some s.handPos else none }.setPc t
        (.evict c u .clearKpage ⟨κ, f.owner, f.kpage⟩) := by
  simp only [Frame.evictable, Bool.and_eq_true, Bool.not_eq_true', Option.isSome_iff_exists] at he
  obtain ⟨hpin, κ, hpage⟩ := he
  refine ⟨κ, hpage, ?_⟩
  unfold sweep
  rw [if_neg hi]
  dsimp only
  rw [hget]
  simp [hpage, hpin, hdir, hclear]

theorem step_sweep (hp : s.pc t = .sweep c u i n) :
    step s (.go t ok) = some s' ↔ s.panicked = none ∧ s' = sweep s t c u i n := by
  simp [step, go, hp, Pc.section, body, eq_comm]

end Turn

/-- `frame_evict` counts the frames when it starts. -/
def St.Counted (s : St) : Prop := ∀ t c u i n, s.pc t = .sweep c u i n → s.frameList.length = n

theorem frameList_of_sweep {c' : Caller} {u' i' n' : ℕ} (hp : s.pc t = .sweep c u i n)
    (h : (sweep s t c u i n).pc t = .sweep c' u' i' n') :
    (sweep s t c u i n).frameList = s.frameList ∧ n' = n := by
  have hstay : s.pc t = .sweep c' u' i' n' → n' = n := by
    intro h
    rw [hp] at h
    cases h
    rfl
  have hpass : ∀ x : St, (x.setPc t (.sweep c u (i + 1) n)).pc t = .sweep c' u' i' n' → n' = n := by
    intro x h
    rw [St.setPc_self] at h
    cases h
    rfl
  unfold sweep at h ⊢
  by_cases hi : 2 * n ≤ i
  · rw [if_pos hi] at h ⊢
    exact ⟨rfl, hstay h⟩
  rw [if_neg hi] at h ⊢
  dsimp only at h ⊢
  cases hget : s.frameList[s.handPos]? with
  | none =>
    rw [hget] at h
    exact ⟨rfl, hstay h⟩
  | some f =>
    rw [hget] at h
    dsimp only at h ⊢
    cases hpage : f.page with
    | none =>
      rw [hpage] at h
      exact ⟨rfl, hpass _ h⟩
    | some κ =>
      rw [hpage] at h
      dsimp only at h ⊢
      by_cases hpin : f.pinned = true
      · rw [if_pos hpin] at h ⊢
        exact ⟨rfl, hpass _ h⟩
      rw [if_neg hpin] at h ⊢
      by_cases hdir : (!s.pagedir f.owner) = true
      · rw [if_pos hdir] at h ⊢
        exact ⟨rfl, hstay h⟩
      rw [if_neg hdir] at h ⊢
      by_cases hacc : (s.pte (f.owner, f.upage)).accessed = true
      · rw [if_pos hacc] at h ⊢
        exact ⟨rfl, hpass _ h⟩
      · rw [if_neg hacc, St.setPc_self] at h
        cases h

/-- Only `frame_evict` starts to go round. -/
theorem frameList_of_start (hs : step s a = some s') (hsw : (s.pc t).sweeps = false)
    (hp' : s'.pc t = .sweep c u i n) : s'.frameList.length = n := by
  have hsw' : (s'.pc t).sweeps = true := by
    rw [hp']
    rfl
  have habsurd : s'.pc t ≠ s.pc t := by
    intro h
    rw [h, hsw] at hsw'
    cases hsw'
  by_cases hown : ∃ ok, a = .go t ok
  · obtain ⟨ok, rfl⟩ := hown
    obtain ⟨-, -, rfl⟩ | ⟨c, u, hp, -, rfl⟩ | ⟨-, hb⟩ | ⟨L, x, -, -, hb, rfl⟩ | ⟨L, -, -, rfl⟩ :=
      go_cases (go_of_step hs)
    · split at hp' <;> simp [makeDir] at hp'
    · rw [St.setPc_self] at hp'
      cases hp'
      rfl
    · rw [(body_goes hb).self.sweeps hsw] at hsw'
      cases hsw'
    · have hx := (body_goes hb).self.sweeps hsw
      rw [show (x.setLock L none).pc t = x.pc t from rfl, hx] at hsw'
      cases hsw'
    · exact absurd rfl habsurd
  · cases hactor : a.actor with
    | none => exact absurd ((aside_step (t := t + 1) hs (.inr hactor)).pc t (by omega)) habsurd
    | some t' =>
      by_cases ht : t = t'
      · subst ht
        obtain hpc | ⟨q, hpc, henter⟩ := moves_step hs hactor fun ok heq => hown ⟨ok, heq⟩
        · exact absurd (by rw [hpc]) habsurd
        · rw [hpc, Function.update_self, henter.sweeps] at hsw'
          cases hsw'
      · exact absurd ((aside_step hs (.inl hactor)).pc t ht) habsurd

theorem St.Counted.step (h : s.Counted) (hg : Good s) (hs : Vm.step s a = some s') : s'.Counted := by
  intro t c u i n hp'
  cases hsw : (s.pc t).sweeps with
  | true =>
    cases hp : s.pc t with
    | sweep c₀ u₀ i₀ n₀ =>
      have hlen := h t c₀ u₀ i₀ n₀ hp
      by_cases hown : ∃ ok, a = .go t ok
      · obtain ⟨ok, rfl⟩ := hown
        obtain ⟨-, rfl⟩ := (step_sweep hp).mp hs
        obtain ⟨hsame, rfl⟩ := frameList_of_sweep hp hp'
        rw [hsame, hlen]
      · have hund := leftAlone hg hsw hs fun ok heq => hown ⟨ok, heq⟩
        rw [hund.pc, hp] at hp'
        cases hp'
        rw [hund.frameList, hlen]
    | _ =>
      rw [hp] at hsw
      cases hsw
  | false => exact frameList_of_start hs hsw hp'

theorem counted_of_reachable {x : St × Table} (h : kernel.Reachable x) :
    Good x.1 ∧ x.1.Counted := by
  refine h.invariant (P := fun x => Good x.1 ∧ x.1.Counted) ?_ ?_
  · rintro ⟨s, T⟩ ⟨hs, -⟩
    refine ⟨⟨Inv.initial hs, maps_init hs⟩, ?_⟩
    obtain ⟨_, _, _, _, _, _, rfl⟩ := hs
    exact nofun
  · rintro x b y ⟨hgood, hcnt⟩ - hstep
    obtain ⟨-, hs, -⟩ := kernel_step.mp hstep
    exact ⟨hgood.step hs, hcnt.step hgood hs⟩

/-! ### What is to be taken -/

namespace Table

/-- The frame at an address can be evicted. -/
def evictable (T : Table) (a : ℕ) : Bool := (T.frame a).evictable

/-- The page of the frame at an address. -/
def key (T : Table) (a : ℕ) : Key := ((T.frame a).owner, (T.frame a).upage)

/-- The elements of `Frame_list` in circular order from the hand on. -/
def order (T : Table) : List ℕ :=
  match T.hand with
  | .elem a => T.list.rotate (T.list.idxOf a)
  | _ => T.list

end Table

/-- The accessed bit of the frame at an address. -/
def accessedAt (x : St × Table) (a : ℕ) : Bool := (x.1.pte (x.2.key a)).accessed

/-- The frame can be evicted, and its accessed bit is clear. -/
def ready (x : St × Table) (a : ℕ) : Bool := x.2.evictable a && !accessedAt x a

/-- The first evictable frame whose accessed bit is clear, or else the first evictable frame. -/
def victim (x : St × Table) : Option ℕ := (x.2.order.find? (ready x)).or (x.2.order.find? x.2.evictable)

/-- What the hand goes past before it comes to the victim: a part of the first round, or all of it and a part
of the second one. -/
def passed (x : St × Table) : List ℕ :=
  if x.2.order.any (ready x) then x.2.order.takeWhile (!ready x ·)
  else x.2.order ++ x.2.order.takeWhile (!x.2.evictable ·)

theorem Table.Shows.length {T : Table} (h : T.Shows s) : T.list.length = s.frameList.length := by
  rw [← h.frames, Table.frames, List.length_map]

/-- The circular order in terms of the place of the hand. -/
theorem Table.Shows.order_eq {T : Table} (h : T.Shows s) : T.order = T.list.rotate s.handPos := by
  have hhand := h.hand
  unfold Table.order
  cases hp : T.hand with
  | null | tail =>
    rw [hp] at hhand
    have hnone : s.hand = none := hhand
    simp [St.handPos, hnone]
  | elem a =>
    rw [hp] at hhand
    obtain ⟨j, hj, ha⟩ := hhand
    obtain ⟨hlt, rfl⟩ := List.getElem?_eq_some_iff.mp ha
    have hpos : s.handPos = j := by
      simp only [St.handPos, hj]
      rw [if_pos (h.length ▸ hlt)]
    show T.list.rotate (T.list.idxOf T.list[j]) = T.list.rotate s.handPos
    rw [hpos, h.nodup.idxOf_getElem]

theorem Table.Shows.order_perm {T : Table} (h : T.Shows s) : T.order.Perm T.list := by
  rw [h.order_eq]
  exact List.rotate_perm ..

theorem Table.Shows.mem_of_rounds {T : Table} (h : T.Shows s) {v : ℕ}
    (hv : (T.order ++ T.order)[k]? = some v) : v ∈ T.list := by
  rcases List.mem_append.mp (List.mem_of_getElem? hv) with hv | hv <;> exact h.order_perm.mem_iff.mp hv

/-- Frames on the list are frames of different pages. -/
theorem Table.Shows.key_inj {T : Table} (h : T.Shows s) (hi : Inv s) {a b : ℕ} (ha : a ∈ T.list)
    (hb : b ∈ T.list) (hkey : T.key a = T.key b) : a = b := by
  have hmem : ∀ a ∈ T.list, T.frame a ∈ s.frameList := fun a ha => by
    rw [← h.frames]
    exact List.mem_map_of_mem ha
  have hframe : T.frame a = T.frame b := by
    have h1 := (hi.frame (hmem a ha)).1
    have h2 := (hi.frame (hmem b hb)).1
    rw [show ((T.frame a).owner, (T.frame a).upage) = T.key b from hkey,
      show T.key b = ((T.frame b).owner, (T.frame b).upage) from rfl, h2] at h1
    exact (List.cons.inj h1).1.symm
  -- the frames on the list are in different pages of the user pool, hence at different places of the list
  have hnodup : (T.list.map fun a => (T.frame a).kpage).Nodup := by
    have := hi.nodup
    rw [← h.frames, Table.frames, List.map_map] at this
    exact this
  exact List.inj_on_of_nodup_map hnodup ha hb (congrArg Frame.kpage hframe)

/-! ### The loop -/

/-- No accessed bit is set. -/
def NoneSet (s s' : St) : Prop := ∀ κ, (s'.pte κ).accessed = true → (s.pte κ).accessed = true

/-- The process takes `k` turns. The others run in between, and no accessed bit is set. -/
inductive Turns (t : ℕ) (x : St × Table) : ℕ → St × Table → Prop
  | refl : Turns t x 0 x
  | other {k : ℕ} {y z : St × Table} {b : Act × ℕ} (h : Turns t x k y) (hne : ∀ ok, b.1 ≠ .go t ok)
      (hs : kernel.step y b = some z) (hset : NoneSet y.1 z.1) : Turns t x k z
  | turn {k addr : ℕ} {y z : St × Table} {ok : Bool} (h : Turns t x k y)
      (hs : kernel.step y (.go t ok, addr) = some z) : Turns t x (k + 1) z

theorem Turns.reachable {x y : St × Table} (h : Turns t x k y) (hx : kernel.Reachable x) :
    kernel.Reachable y := by
  induction h with
  | refl => exact hx
  | other _ _ hs _ ih | turn _ hs ih => exact .step ih trivial hs

/-- After `k` turns. -/
structure Round (x y : St × Table) (t : ℕ) (c : Caller) (u n k : ℕ) : Prop where
  pc : y.1.pc t = .sweep c u k n
  list : y.2.list = x.2.list
  frame : y.2.frame = x.2.frame
  hand : y.1.handPos = (x.1.handPos + k) % n
  accessed : ∀ a ∈ x.2.list, x.2.evictable a = true →
    accessedAt y a = (accessedAt x a && !decide (a ∈ (x.2.order ++ x.2.order).take k))

/-- The victim has been taken off the list. -/
structure Taken (x z : St × Table) (t : ℕ) (c : Caller) (u v : ℕ) : Prop where
  pc : ∃ κ, (x.2.frame v).page = some κ ∧
    z.1.pc t = .evict c u .clearKpage ⟨κ, (x.2.frame v).owner, (x.2.frame v).kpage⟩
  panicked : z.1.panicked = none
  list : z.2.list = x.2.list.erase v
  hand : next v x.2.list = some z.2.hand
  accessed : ∀ a ∈ x.2.list, x.2.evictable a = true →
    accessedAt z a = (accessedAt x a && !decide (a ∈ passed x))

section Loop

variable {x y z : St × Table} {b : Act × ℕ}

/-- The others act. -/
theorem Round.other (h : Round x y t c u n k) (hy : kernel.Reachable y) (hne : ∀ ok, b.1 ≠ .go t ok)
    (hs : kernel.step y b = some z) (hset : NoneSet y.1 z.1) : Round x z t c u n k := by
  obtain ⟨hgood, hshows⟩ := shows_of_reachable hy
  obtain ⟨-, hstep, hT⟩ := kernel_step.mp hs
  have hsw : (y.1.pc t).sweeps = true := by
    rw [h.pc]
    rfl
  have hund := leftAlone hgood hsw hstep hne
  rw [Table.step_of_other hgood hsw hne] at hT
  have hT' : z.2 = y.2 := (Option.some.inj hT).symm
  refine ⟨hund.pc.trans h.pc, by rw [hT', h.list], by rw [hT', h.frame], ?_, fun a ha he => ?_⟩
  · rw [← h.hand]
    simp only [St.handPos, hund.hand, hund.frameList]
  · rw [← h.accessed a ha he]
    have hmem : y.2.frame a ∈ y.1.frameList := by
      rw [← hshows.frames]
      exact List.mem_map_of_mem (h.list ▸ ha)
    have he' : (y.2.frame a).evictable = true := by
      rw [h.frame]
      exact he
    have hkeep := (hund.bits _ hmem he').accessed
    have hkey : accessedAt z a = (z.1.pte (y.2.key a)).accessed := by rw [accessedAt, hT']
    rw [hkey, Bool.eq_iff_iff]
    exact ⟨hset _, hkeep⟩

/-- The address that a turn comes to. -/
theorem Round.getElem? (h : Round x y t c u n k) (hx : x.2.Shows x.1) (hn : x.1.frameList.length = n)
    (hk : k < 2 * n) : y.2.list[y.1.handPos]? = (x.2.order ++ x.2.order)[k]? := by
  have hlen : x.2.list.length = n := hx.length.trans hn
  rw [h.list, h.hand, hx.order_eq, getElem?_rounds (by rw [hlen]; exact hk), hlen]

/-- What the table is after a turn. -/
theorem table_of_turn {v : ℕ} (hp : y.1.pc t = .sweep c u k n) (hk : k < 2 * n) (hy : y.2.Shows y.1)
    (hv : y.2.list[y.1.handPos]? = some v) {ok : Bool} (hs : kernel.step y (.go t ok, addr) = some z) :
    y.1.panicked = none ∧ z.1 = sweep y.1 t c u k n ∧ z.2.frame = y.2.frame ∧
      if y.2.evictable v && !accessedAt y v then
        z.2.list = y.2.list.erase v ∧ next v y.2.list = some z.2.hand
      else z.2.list = y.2.list := by
  obtain ⟨-, hstep, hT⟩ := kernel_step.mp hs
  obtain ⟨hpan, hz⟩ := (step_sweep hp).mp hstep
  refine ⟨hpan, hz, ?_⟩
  obtain ⟨p, hnext, hturn⟩ := hy.turn_eq hv fun f => (y.1.pte (f.owner, f.upage)).accessed
  have hbody : y.2.step y.1 addr (.go t ok) =
      y.2.turn fun f => (y.1.pte (f.owner, f.upage)).accessed := by
    simp only [Table.step, Table.entered, Table.body, hp, Pc.section, Option.all_none, if_true]
    rw [if_neg (by omega)]
  rw [hbody, hturn] at hT
  change (if (y.2.evictable v && !accessedAt y v) = true then _ else _) = _ at hT
  split
  · next hready =>
    rw [if_pos hready] at hT
    have hmove : moveOn y.2.list v p = some p := if_neg (next_ne hy.nodup hv hnext)
    simp only [Table.remove, hmove, Option.map_some, Option.some.injEq] at hT
    rw [← hT]
    exact ⟨rfl, rfl, hnext⟩
  · next hready =>
    rw [if_neg hready] at hT
    rw [← Option.some.inj hT]
    exact ⟨rfl, rfl⟩

theorem nextPos_mod {m : ℕ} (hn : 0 < n) : nextPos (m % n) n = (m + 1) % n := by
  have hlt := Nat.mod_lt m hn
  rw [Nat.add_mod, nextPos]
  split
  · next h => rw [Nat.mod_eq_of_lt (show 1 < n by omega), Nat.mod_eq_of_lt h]
  · next h =>
    by_cases h1 : n = 1
    · subst h1
      omega
    · rw [Nat.mod_eq_of_lt (show 1 < n by omega), show m % n + 1 = n by omega, Nat.mod_self]

/-- The process takes a turn, and passes over the frame that it comes to. -/
theorem Round.pass {v : ℕ} (h : Round x y t c u n k) (hx : x.2.Shows x.1)
    (hn : x.1.frameList.length = n) (hk : k < 2 * n) (hy : kernel.Reachable y)
    (hv : (x.2.order ++ x.2.order)[k]? = some v)
    (hpass : x.2.evictable v = true → accessedAt y v = true) {ok : Bool}
    (hs : kernel.step y (.go t ok, addr) = some z) :
    Round x z t c u n (k + 1) ∧
      ∀ a ∈ x.2.list, ¬ (a = v ∧ x.2.evictable a = true) → z.1.pte (x.2.key a) = y.1.pte (x.2.key a) := by
  obtain ⟨hgood, hshows⟩ := shows_of_reachable hy
  have hget : y.2.list[y.1.handPos]? = some v := (h.getElem? hx hn hk).trans hv
  have hevict : y.2.evictable v = x.2.evictable v := by simp only [Table.evictable, h.frame]
  have hkey : ∀ a, y.2.key a = x.2.key a := fun a => by simp only [Table.key, h.frame]
  obtain ⟨-, hz, hframe, hlist⟩ := table_of_turn h.pc hk hshows hget hs
  rw [if_neg (by
    rw [hevict, Bool.and_eq_true, Bool.not_eq_true']
    rintro ⟨he, hacc⟩
    rw [hpass he] at hacc
    cases hacc)] at hlist
  have hlen : y.1.frameList.length = n := by
    rw [← hshows.length, h.list, hx.length, hn]
  have hf : y.1.frameList[y.1.handPos]? = some (y.2.frame v) := by
    rw [hshows.getElem?, hget, Option.map_some]
  have hsweep := sweep_pass (t := t) (c := c) (u := u) (i := k) (n := n) (by omega) hf
    (hgood.inv.pagedir_of_frame (List.mem_of_getElem? hf)) fun he => hpass (hevict ▸ he)
  rw [← hz] at hsweep
  have hpte : z.1.pte = if x.2.evictable v then Function.update y.1.pte (x.2.key v)
      { y.1.pte (x.2.key v) with accessed := false } else y.1.pte := by
    rw [hsweep, ← hevict, ← hkey]
    rfl
  have hother : ∀ a ∈ x.2.list, ¬ (a = v ∧ x.2.evictable a = true) →
      z.1.pte (x.2.key a) = y.1.pte (x.2.key a) := by
    intro a ha hne
    rw [hpte]
    split
    · next he =>
      refine Function.update_of_ne ?_ _ _
      intro hsame
      have hav : a = v := by
        refine hshows.key_inj hgood.inv (h.list ▸ ha) (List.mem_of_getElem? hget) ?_
        rw [hkey, hkey, hsame]
      exact hne ⟨hav, hav ▸ he⟩
    · rfl
  refine ⟨⟨?_, hlist.trans h.list, hframe.trans h.frame, ?_, ?_⟩, hother⟩
  · rw [hsweep, St.setPc_self]
  · have hnext : z.1.handPos = nextPos y.1.handPos y.1.frameList.length := by
      refine handPos_next ?_ ?_ <;> rw [hsweep] <;> rfl
    have hpos : 0 < n := by
      rw [← hlen]
      exact Nat.lt_of_le_of_lt (Nat.zero_le _) (List.getElem?_eq_some_iff.mp hf).1
    rw [hnext, hlen, h.hand, nextPos_mod hpos, Nat.add_assoc]
  · intro a ha he
    have hz_key : accessedAt z a = (z.1.pte (x.2.key a)).accessed := by
      simp only [accessedAt, Table.key, hframe, h.frame]
    have hy_key : accessedAt y a = (y.1.pte (x.2.key a)).accessed := by rw [accessedAt, hkey]
    rw [List.take_add_one, hv, Option.toList_some, hz_key]
    by_cases hav : a = v
    · subst hav
      rw [hpte, if_pos he, Function.update_self]
      simp
    · rw [hother a ha fun h => hav h.1, ← hy_key, h.accessed a ha he]
      simp [hav]

/-- The process takes a turn, and takes the frame that it comes to. -/
theorem Round.take {v : ℕ} (h : Round x y t c u n k) (hx : x.2.Shows x.1)
    (hn : x.1.frameList.length = n) (hk : k < 2 * n) (hy : kernel.Reachable y)
    (hv : (x.2.order ++ x.2.order)[k]? = some v) (he : x.2.evictable v = true)
    (hclear : accessedAt y v = false) (hpassed : passed x = (x.2.order ++ x.2.order).take k) {ok : Bool}
    (hs : kernel.step y (.go t ok, addr) = some z) : Taken x z t c u v ∧ z.1.pte = y.1.pte := by
  obtain ⟨hgood, hshows⟩ := shows_of_reachable hy
  have hget : y.2.list[y.1.handPos]? = some v := (h.getElem? hx hn hk).trans hv
  have hevict : y.2.evictable v = x.2.evictable v := by simp only [Table.evictable, h.frame]
  obtain ⟨hpan, hz, hframe, hlist⟩ := table_of_turn h.pc hk hshows hget hs
  rw [if_pos (by rw [hevict, he, hclear]; rfl), h.list] at hlist
  have hf : y.1.frameList[y.1.handPos]? = some (y.2.frame v) := by
    rw [hshows.getElem?, hget, Option.map_some]
  obtain ⟨κ, hpage, hsweep⟩ := sweep_take (t := t) (c := c) (u := u) (i := k) (n := n) (by omega) hf
    (hgood.inv.pagedir_of_frame (List.mem_of_getElem? hf)) (hevict.trans he) hclear
  rw [← hz] at hsweep
  have hpte : z.1.pte = y.1.pte := by rw [hsweep]; rfl
  refine ⟨⟨⟨κ, h.frame ▸ hpage, ?_⟩, ?_, hlist.1, hlist.2, fun a ha he => ?_⟩, hpte⟩
  · rw [hsweep, St.setPc_self, h.frame]
  · rw [hsweep]
    exact hpan
  · rw [hpassed, ← h.accessed a ha he]
    simp only [accessedAt, Table.key, hframe, hpte]

end Loop

/-- What two rounds from the hand come to. -/
theorem passed_spec {x : St × Table} (hx : x.2.Shows x.1) (hex : ∃ a ∈ x.2.list, x.2.evictable a = true) :
    ∃ v, victim x = some v ∧ x.2.evictable v = true ∧
      (x.2.order ++ x.2.order)[(passed x).length]? = some v ∧
      passed x = (x.2.order ++ x.2.order).take (passed x).length ∧
      (passed x).length < 2 * x.1.frameList.length ∧
      (∀ k a, k < (passed x).length → (x.2.order ++ x.2.order)[k]? = some a → x.2.evictable a = true →
        a ∉ (x.2.order ++ x.2.order).take k ∧ accessedAt x a = true) ∧
      (accessedAt x v = true → v ∈ passed x) := by
  have hlen : x.2.order.length = x.1.frameList.length := by rw [hx.order_perm.length_eq, hx.length]
  have hex' : ∃ a ∈ x.2.order, x.2.evictable a = true := by
    obtain ⟨a, ha, he⟩ := hex
    exact ⟨a, hx.order_perm.mem_iff.mpr ha, he⟩
  rw [← hlen]
  exact two_rounds (q := accessedAt x) (hx.order_perm.nodup_iff.mpr hx.nodup) hex' rfl

/-- **The second chance.** In every state of a run the hand is null, at the end of `Frame_list` or at an element
of it, and no action follows a wild pointer. When `frame_evict` starts and some frame can be evicted, then,
as long as nobody sets an accessed bit, it takes the victim after less than two rounds; only the evictable
frames that it passes over lose their accessed bits, and the hand stops behind the victim. -/
theorem clock_second_chance {x : St × Table} (hx : kernel.Reachable x) :
    Valid x.2.list x.2.hand ∧
    (∀ b s', b.2 ∉ x.2.list → step x.1 b.1 = some s' → ∃ T', kernel.step x b = some (s', T')) ∧
    ∀ t c u n, x.1.pc t = .sweep c u 0 n → (∃ a ∈ x.2.list, x.2.evictable a = true) →
      n = x.2.list.length ∧
      ∃ v, victim x = some v ∧ x.2.evictable v = true ∧ (passed x).length + 1 ≤ 2 * n ∧
        ∀ k y, Turns t x k y → k ≤ (passed x).length →
          y.1.pc t = .sweep c u k n ∧
          (y.1.panicked = none → ∀ ok addr, addr ∉ y.2.list →
            ∃ z, kernel.step y (.go t ok, addr) = some z) ∧
          ∀ ok addr z, kernel.step y (.go t ok, addr) = some z →
            (∀ a ∈ x.2.list, ¬ (a ∈ passed x ∧ x.2.evictable a = true) →
              z.1.pte (x.2.key a) = y.1.pte (x.2.key a)) ∧
            (k = (passed x).length → Taken x z t c u v) := by
  obtain ⟨hgood, hshows⟩ := shows_of_reachable hx
  have henabled : ∀ {y : St × Table}, kernel.Reachable y → ∀ b s', b.2 ∉ y.2.list →
      step y.1 b.1 = some s' → ∃ T', kernel.step y b = some (s', T') := by
    intro y hy b s' hb hs
    obtain ⟨hgood, hshows⟩ := shows_of_reachable hy
    obtain ⟨T', hT, -⟩ := hshows.step hgood.inv hs hb
    exact ⟨T', kernel_step.mpr ⟨hb, hs, hT⟩⟩
  refine ⟨hshows.hand.valid, henabled hx, fun t c u n hp hex => ?_⟩
  have hn : x.1.frameList.length = n := (counted_of_reachable hx).2 t c u 0 n hp
  obtain ⟨v, hvictim, hevict, hv, hpassed, hlen, hchance, hsecond⟩ := passed_spec hshows hex
  rw [hn] at hlen
  refine ⟨by rw [hshows.length, hn], v, hvictim, hevict, hlen, ?_⟩
  -- the frames before the victim are passed over
  have hpass : ∀ {k y a}, Round x y t c u n k → k < (passed x).length →
      (x.2.order ++ x.2.order)[k]? = some a → x.2.evictable a = true → accessedAt y a = true := by
    intro k y a hround hk ha he
    obtain ⟨hnot, hset⟩ := hchance k a hk ha he
    rw [hround.accessed a (hshows.mem_of_rounds ha) he, hset]
    simp [hnot]
  have hget : ∀ k, k < (passed x).length → ∃ a, (x.2.order ++ x.2.order)[k]? = some a := by
    intro k hk
    have hlt := (List.getElem?_eq_some_iff.mp hv).1
    exact ⟨_, List.getElem?_eq_getElem (by omega)⟩
  have hround : ∀ {k y}, Turns t x k y → k ≤ (passed x).length → Round x y t c u n k := by
    intro k y hturns
    induction hturns with
    | refl =>
      intro _
      have hpos : 0 < x.1.frameList.length := by omega
      refine ⟨hp, rfl, rfl, ?_, fun a _ _ => by simp⟩
      rw [Nat.add_zero, Nat.mod_eq_of_lt (hn ▸ St.handPos_lt hpos)]
    | other h hne hs hset ih =>
      intro hk
      exact (ih hk).other (h.reachable hx) hne hs hset
    | turn h hs ih =>
      intro hk
      obtain ⟨a, ha⟩ := hget _ hk
      have hround := ih (by omega)
      exact (hround.pass hshows hn (by omega) (h.reachable hx) ha (hpass hround hk ha) hs).1
  intro k y hturns hk
  have hr := hround hturns hk
  have hy := hturns.reachable hx
  refine ⟨hr.pc, fun hpan ok addr haddr => ?_, fun ok addr z hs => ?_⟩
  · obtain ⟨T', hT'⟩ := henabled hy (.go t ok, addr) _ haddr ((step_sweep hr.pc).mpr ⟨hpan, rfl⟩)
    exact ⟨_, hT'⟩
  · rcases Nat.lt_or_eq_of_le hk with hlt | rfl
    · obtain ⟨a, ha⟩ := hget k hlt
      have hother := (hr.pass hshows hn (by omega) hy ha (hpass hr hlt ha) hs).2
      refine ⟨fun b hb hne => hother b hb ?_, fun heq => absurd heq (by omega)⟩
      rintro ⟨rfl, he⟩
      refine hne ⟨?_, he⟩
      rw [hpassed]
      exact List.mem_of_getElem? ((List.getElem?_take_of_lt hlt).trans ha)
    · have hclear : accessedAt y v = false := by
        rw [hr.accessed v (hshows.mem_of_rounds hv) hevict, ← hpassed]
        cases hacc : accessedAt x v with
        | false => rfl
        | true => simp [hsecond hacc]
      obtain ⟨htaken, hpte⟩ := hr.take hshows hn hlen hy hv hevict hclear hpassed hs
      exact ⟨fun _ _ _ => by rw [hpte], fun _ => htaken⟩

/-- No frame. -/
def Table.empty : Table := ⟨[], fun _ => ⟨0, 0, 0, none, false⟩, .null⟩

/-- The process of `bufferActs` uses its stack first. Then it waits for a frame for its page 2, and takes
`Frame_lock`. The addresses of the frames are the numbers of the actions. -/
def clockActs : List (Act × ℕ) :=
  (bufferActs.take 15 ++ [Act.load 0 3 0 0] ++ bufferActs.drop 15 ++ [Act.go 0 true, Act.go 0 true]).zipIdx

/-- The stack gets a second chance, the page 1 is pinned, and then the stack is taken. -/
theorem clock_second_chance_buffer : ∃ x, kernel.Reachable x ∧ Valid x.2.list x.2.hand ∧
    victim x = some 8 ∧ passed x = [8, 21] ∧
    ∀ y z, Turns 0 x 2 y → kernel.step y (.go 0 true, 0) = some z → Taken x z 0 .pin 2 8 := by
  obtain ⟨x, hr, hp, hex, hvictim, hpassed⟩ := System.exists_of_runWith
    (fun x : St × Table => x.1.pc 0 = .sweep .pin 2 0 2 ∧ (∃ a ∈ x.2.list, x.2.evictable a = true) ∧
      victim x = some 8 ∧ passed x = [8, 21])
    (show (kernel.run (zeroed 4 2 1, Table.empty) clockActs).any _ = true by decide +kernel)
  have hinit : kernel.init (zeroed 4 2 1, Table.empty) := ⟨zeroed_init .., rfl, rfl⟩
  have hreach := System.reachable_of_run hinit hr
  obtain ⟨hvalid, -, hturns⟩ := clock_second_chance hreach
  obtain ⟨-, v, hv, -, -, hall⟩ := hturns 0 .pin 2 2 hp hex
  obtain rfl : v = 8 := Option.some.inj (hv.symm.trans hvictim)
  refine ⟨x, hreach, hvalid, hv, hpassed, fun y z hy hz => ?_⟩
  rw [hpassed] at hall
  exact ((hall 2 y hy (Nat.le_refl 2)).2.2 true 0 z hz).2 rfl

end Vm
end Pintos
