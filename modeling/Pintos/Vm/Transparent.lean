import Pintos.Lib.FlatMemory
import Pintos.Vm.History

/-!
# Demand paging is transparent

To a program its pages are flat memory: a byte holds what was last stored in it, or else what the entry
of its page gives for it. The paging code moves pages between files, frames and the swap device, and
evicts them while their processes run, and nobody sees it: every trace of the system is one of
`Flat.machine` (`transparent`).
-/

namespace Pintos
namespace Vm

variable {s s' : St} {t u b : ℕ} {v : UInt8} {κ : Key} {e : Entry} {a : Act}

/-- The page of the acting process that gets an entry or loses it. -/
def changed (s : St) (a : Act) (s' : St) : Option Key :=
  a.actor.bind fun t =>
    ((List.range s.userPages).find? fun u => (s.spt (t, u)).isSome != (s'.spt (t, u)).isSome).map
      fun u => (t, u)

/-- What is seen of an action: accesses to user memory, and which pages there are. A page comes with the
bytes that its entry gives. -/
def label (s : St) (a : Act) (s' : St) : Flat.Label Key UInt8 :=
  match a with
  | .load t u b v => .read (t, u) b v
  | .store t u b v => .write (t, u) b v
  | _ =>
    match changed s a s' with
    | none => .internal
    | some κ =>
      match s'.spt κ with
      | none => .destroy κ
      | some e => .create κ (fileBytes s e.file e.ofs e.readBytes)

/-- Nobody has changed the file of the page that is read while nothing had been stored in the page. -/
def Undisturbed (s : St) : Act → Prop
  | .load t u _ _ => (s.ghost (t, u)).stale = false
  | _ => True

instance (s : St) (a : Act) : Decidable (Undisturbed s a) :=
  match a with
  | .load .. => instDecidableEqBool ..
  | .spawn _ | .addFile .. | .setupStack _ | .abort _ | .store .. | .fault .. | .enter _ | .pin ..
  | .checkWritable .. | .file _ | .write .. | .deny .. | .mmap .. | .munmap .. | .leave _ | .exit _ | .go ..
  | .destroy .. => instDecidableTrue

/-- The memory that the processes see. -/
def St.flat (s : St) : Flat.Mem Key UInt8 := fun κ => (s.spt κ).map fun _ => (s.ghost κ).flat

/-! ### The labels -/

theorem St.isSome_origin (s : St) (κ : Key) : (s.origin κ).isSome = (s.spt κ).isSome := by
  simp [St.origin]

theorem St.flat_eq (ho : s'.origin κ = s.origin κ) (hf : (s'.ghost κ).flat = (s.ghost κ).flat) :
    s'.flat κ = s.flat κ := by
  have hsome : (s'.spt κ).isSome = (s.spt κ).isSome := by
    rw [← s'.isSome_origin, ← s.isSome_origin, ho]
  cases h : s.spt κ <;> cases h' : s'.spt κ <;> simp_all [St.flat]

theorem label_of_access (ha : a.access = false) :
    label s a s' = match changed s a s' with
      | none => .internal
      | some κ =>
        match s'.spt κ with
        | none => .destroy κ
        | some e => .create κ (fileBytes s e.file e.ofs e.readBytes) := by
  cases a with
  | load | store => cases ha
  | _ => rfl

/-- No page gets an entry or loses it. -/
theorem label_internal (ha : a.access = false) (h : ∀ κ, s'.origin κ = s.origin κ) :
    label s a s' = .internal := by
  have hc : changed s a s' = none := by
    unfold changed
    cases a.actor with
    | none => rfl
    | some t =>
      simp only [Option.bind_some, Option.map_eq_none_iff, List.find?_eq_none]
      intro u _
      rw [← s.isSome_origin, ← s'.isSome_origin, h]
      simp
  rw [label_of_access ha, hc]

/-- One page gets an entry or loses it. -/
theorem changed_eq (hactor : a.actor = some κ.1) (hlt : κ.2 < s.userPages)
    (hκ : (s.spt κ).isSome ≠ (s'.spt κ).isSome)
    (hother : ∀ κ', κ' ≠ κ → s'.origin κ' = s.origin κ') : changed s a s' = some κ := by
  have hfind : ((List.range s.userPages).find? fun u =>
      (s.spt (κ.1, u)).isSome != (s'.spt (κ.1, u)).isSome) = some κ.2 := by
    refine List.find?_range_eq_some.2 ⟨?_, by simpa using hlt, ?_⟩
    · simpa using hκ
    · intro u hu
      have hne : (κ.1, u) ≠ κ := fun h => by
        have : κ.2 = u := by rw [← h]
        omega
      rw [← s.isSome_origin, ← s'.isSome_origin, hother _ hne]
      simp
  simp only [changed, hactor, Option.bind_some, hfind, Option.map_some]

/-! ### The simulation -/

/-- **What is read is what the process expects.** -/
theorem Inv.load (h : Inv s) (hs : Vm.step s (.load t u b v) = some s')
    (hfresh : (s.ghost (t, u)).stale = false) :
    ∃ e, s.spt (t, u) = some e ∧ (s.ghost (t, u)).flat b = v := by
  cases step_cases hs with
  | load _ _ _ _ hc =>
  obtain ⟨hacc, hpr, -, hv⟩ := hc
  obtain ⟨source, hsource⟩ := Option.isSome_iff_exists.1 hacc
  obtain ⟨hidle, -⟩ := Pc.idle_of_accessor (St.accessor_facts hsource).2
  have hplace := h.place_of_present (hidle u) hpr
  obtain ⟨e, he, hf, -⟩ := (h.content (t, u)).present (h.shape (t, u)) (hidle u) hpr
  refine ⟨e, he, ?_⟩
  have hdata : s.mem (s.pte (t, u)).kpage = (s.ghost (t, u)).flat := by
    have := hf hfresh
    simpa only [St.page, hplace, Option.elim_some] using this
  rw [← hdata, hv]

theorem flat_update {o : Option Bytes} (hother : ∀ κ', κ' ≠ κ → s'.flat κ' = s.flat κ')
    (hκ : s'.flat κ = o) : s'.flat = Function.update s.flat κ o := by
  funext κ'
  by_cases h : κ' = κ
  · subst h
    rw [Function.update_self, hκ]
  · rw [Function.update_of_ne h, hother κ' h]

theorem flat_create (hg : Good s') (hup : s'.userPages = s.userPages) (ha : a.access = false)
    (hactor : a.actor = some κ.1) (hn : s.spt κ = none) (hA : Alike (addEntry s κ e) s') :
    Flat.Step s.flat (label s a s') s'.flat := by
  have hother : ∀ κ', κ' ≠ κ → s'.origin κ' = s.origin κ' := fun κ' hκ' => by
    rw [hA.origin κ', addEntry_origin, Function.update_of_ne hκ']
  have hκ : s'.origin κ = some e.origin := by
    rw [hA.origin κ, addEntry_origin, Function.update_self]
  obtain ⟨e', he', horigin⟩ := Option.map_eq_some_iff.1 hκ
  have hlt : κ.2 < s.userPages := by
    by_contra hge
    have := (hg.inv.bound κ (by omega)).1
    rw [he'] at this
    cases this
  have hchanged : changed s a s' = some κ := changed_eq hactor hlt (by simp [hn, he']) hother
  obtain ⟨hfile, hofs, hread⟩ : e'.file = e.file ∧ e'.ofs = e.ofs ∧ e'.readBytes = e.readBytes := by
    simp only [Entry.origin, Origin.mk.injEq] at horigin
    exact horigin.2.2
  have hlabel : label s a s' = .create κ (fileBytes s e.file e.ofs e.readBytes) := by
    rw [label_of_access ha, hchanged]
    simp only [he', hfile, hofs, hread]
  have hflat : s'.flat =
      Function.update s.flat κ (some (fileBytes s e.file e.ofs e.readBytes)) := by
    refine flat_update (fun κ' hκ' => St.flat_eq (hother κ' hκ') ?_) ?_
    · simp [hA.ghost, addEntry, Function.update_of_ne hκ']
    · simp [St.flat, he', hA.ghost, addEntry]
  rw [hlabel, hflat]
  exact .create _ (by simp [St.flat, hn])

theorem flat_destroy (hg : Good s) (ha : a.access = false) (hactor : a.actor = some κ.1)
    (hA : Alike { s with spt := Function.update s.spt κ none } s') :
    Flat.Step s.flat (label s a s') s'.flat := by
  have hother : ∀ κ', κ' ≠ κ → s'.origin κ' = s.origin κ' := fun κ' hκ' => by
    rw [hA.origin κ', deleteEntry_origin, Function.update_of_ne hκ']
  have hκ : s'.spt κ = none := by
    have := hA.origin κ
    rwa [deleteEntry_origin, Function.update_self, St.origin, Option.map_eq_none_iff] at this
  have hflat : s'.flat = Function.update s.flat κ none :=
    flat_update (fun κ' hκ' => St.flat_eq (hother κ' hκ') (by rw [hA.ghost])) (by simp [St.flat, hκ])
  by_cases hn : s.spt κ = none
  · have hall : ∀ κ', s'.origin κ' = s.origin κ' := fun κ' => by
      by_cases h : κ' = κ
      · rw [h, St.origin, St.origin, hκ, hn]
      · exact hother κ' h
    have hsame : s'.flat = s.flat := by
      rw [hflat, Function.update_eq_self_iff]
      simp [St.flat, hn]
    rw [label_internal ha hall, hsame]
    exact .internal
  · have hlt : κ.2 < s.userPages := by
      by_contra hge
      exact hn (hg.inv.bound κ (by omega)).1
    have hchanged : changed s a s' = some κ := by
      refine changed_eq hactor hlt ?_ hother
      rw [hκ, Option.isSome_iff_ne_none.2 hn]
      simp
    have hlabel : label s a s' = .destroy κ := by
      rw [label_of_access ha, hchanged]
      simp only [hκ]
    rw [hlabel, hflat]
    exact .destroy (by simpa [St.flat] using hn)

theorem flat_store (hg : Good s) (hs : step s (.store t u b v) = some s')
    (horigin : ∀ κ, s'.origin κ = s.origin κ)
    (hghost : s'.ghost = Function.update s.ghost (t, u) ((s.ghost (t, u)).store b v)) :
    Flat.Step s.flat (.write (t, u) b v) s'.flat := by
  have hpr : ∃ e, s.spt (t, u) = some e := by
    cases step_cases hs with
    | store _ _ _ _ hc =>
      obtain ⟨source, hsource⟩ := Option.isSome_iff_exists.1 hc.1
      obtain ⟨hidle, -⟩ := Pc.idle_of_accessor (St.accessor_facts hsource).2
      obtain ⟨e, he, -⟩ := (hg.inv.content (t, u)).present (hg.inv.shape (t, u)) (hidle u) hc.2.1
      exact ⟨e, he⟩
  obtain ⟨e, he⟩ := hpr
  have he' : (s'.spt (t, u)).isSome = true := by
    rw [← s'.isSome_origin, horigin, s.isSome_origin, he]
    rfl
  obtain ⟨e', he'⟩ := Option.isSome_iff_exists.1 he'
  have hflat : s'.flat = Function.update s.flat (t, u)
      (some (Function.update (s.ghost (t, u)).flat b v)) := by
    refine flat_update (fun κ' hκ' => St.flat_eq (horigin κ') ?_) ?_
    · rw [hghost, Function.update_of_ne hκ']
    · simp [St.flat, he', hghost, Ghost.store]
  rw [hflat]
  exact .write b v (by simp [St.flat, he])

/-- A write to a file changes what no page holds. -/
theorem flat_writeFile {f lo n : ℕ} {data : Bytes} {own : Option Key} (κ : Key) :
    ((writeFile s f lo n data own).ghost κ).flat = (s.ghost κ).flat ∧
      (writeFile s f lo n data own).origin κ = s.origin κ := by
  unfold writeFile
  split
  · exact ⟨rfl, rfl⟩
  · refine ⟨?_, rfl⟩
    simp only
    split
    · rfl
    · exact ((s.ghost κ).hit_facts f lo n).1

/-- An action that creates, deletes and stores nothing. -/
theorem flat_internal (ha : a.access = false) (horigin : ∀ κ, s'.origin κ = s.origin κ)
    (hflat : ∀ κ, (s'.ghost κ).flat = (s.ghost κ).flat) :
    Flat.Step s.flat (label s a s') s'.flat := by
  have hsame : s'.flat = s.flat := funext fun κ => St.flat_eq (horigin κ) (hflat κ)
  rw [label_internal ha horigin, hsame]
  exact .internal

/-- **Every action is one of flat memory.** -/
theorem flat_step (h : Good s) (hok : Undisturbed s a) (hs : step s a = some s') :
    Flat.Step s.flat (label s a s') s'.flat := by
  cases effect_step h hs with
  | none hstore hA =>
    cases hacc : a.access with
    | false => exact flat_internal hacc hA.origin fun κ => by rw [hA.ghost]
    | true =>
      cases a with
      | load t u b v =>
        obtain ⟨e, he, hv⟩ := h.inv.load hs hok
        have hsame : s'.flat = s.flat :=
          funext fun κ => St.flat_eq (hA.origin κ) (by rw [hA.ghost])
        rw [hsame, ← hv]
        exact .read b (by simp [St.flat, he])
      | store t u b v => exact absurd rfl (hstore t u b v)
      | _ => cases hacc
  | create κ e ha hactor hn hA =>
    exact flat_create (h.step hs) (aside_step hs (.inl hactor)).userPages ha hactor hn hA
  | destroy κ ha hactor hA => exact flat_destroy h ha hactor hA
  | store t u b v horigin hghost hfiles => exact flat_store h hs horigin hghost
  | write t f pos v hA | writeBack t κ f n e k ok hw hA =>
    exact flat_internal rfl (fun κ => (hA.origin κ).trans (flat_writeFile κ).2) fun κ => by
      rw [hA.ghost, (flat_writeFile κ).1]
  | deny f b horigin hghost hfiles => exact flat_internal rfl horigin fun κ => by rw [hghost]

theorem simulates_flat : Simulates sys Undisturbed label (Flat.machine Key UInt8)
    fun s m => m = s.flat where
  init s hs := by
    refine ⟨s.flat, ?_, rfl⟩
    obtain ⟨_, _, _, _, _, _, rfl⟩ := hs
    rfl
  step s a s' m hr hm hok hs := by
    subst hm
    exact ⟨s'.flat, flat_step (good_of_reachable hr) hok hs, rfl⟩

/-- **Demand paging is transparent**: every run is one of flat memory, and every read returns what was
last stored in the byte, or else what the entry of the page gives for it. -/
theorem transparent {es : List (Flat.Label Key UInt8)} (h : sys.Traces Undisturbed label es s) :
    (∃ m, (Flat.machine Key UInt8).Traces es m) ∧
      ∀ es' κ b v, es' ++ [.read κ b v] <+: es → Flat.last κ b es' = some v := by
  obtain ⟨m, hm, -⟩ := simulates_flat.exists_traces h
  exact ⟨⟨m, hm⟩, fun es' κ b v hp => Flat.read_last hm hp⟩

/-- The process stores a byte in its stack, needs the only frame for its page 1 and then again for the
stack. -/
def swapActs : List Act :=
  [Act.spawn 0, Act.go 0 true, Act.addFile 0 1 0 0 0 true, Act.setupStack 0] ++ List.replicate 10 (Act.go 0 true) ++
    [Act.store 0 3 5 7, Act.fault 0 1 0 false 0 true] ++ List.replicate 25 (Act.go 0 true) ++
    [Act.fault 0 3 5 false 0 true] ++ List.replicate 23 (Act.go 0 true)

/-- The byte comes back from the swap slot. -/
theorem transparent_swap : ∃ es s, sys.Traces Undisturbed label (es ++ [.read (0, 3) 5 7]) s ∧
    Flat.last (0, 3) 5 es = some 7 := by
  obtain ⟨s, hr, hok, hload⟩ := System.exists_of_runWith
    (fun s => Undisturbed s (.load 0 3 5 7) ∧ (step s (.load 0 3 5 7)).isSome)
    (show (sys.runWith (fun s a => decide (Undisturbed s a)) (zeroed 4 1 1) swapActs).any _ = true by
      decide +kernel)
  have himp : ∀ s a, decide (Undisturbed s a) = true → Undisturbed s a := fun _ _ => of_decide_eq_true
  have hreach := System.reachableVia_of_runWith himp (zeroed_init ..) hr
  obtain ⟨es, hes⟩ : ∃ es, sys.Traces Undisturbed label es s := hreach.exists_traces
  obtain ⟨s', hs'⟩ := Option.isSome_iff_exists.1 hload
  have htrace : sys.Traces Undisturbed label (es ++ [.read (0, 3) 5 7]) s' := .step hes hok hs'
  exact ⟨es, s', htrace, (transparent htrace).2 es (0, 3) 5 7 List.prefix_rfl⟩

/-! ### Isolation -/

theorem aside_of_other (hs : step s a = some s') (ha : a.actor ≠ some t) :
    ∃ t', t ≠ t' ∧ Aside s s' t' := by
  cases hactor : a.actor with
  | none => exact ⟨t + 1, by omega, aside_step hs (.inr hactor)⟩
  | some t' => exact ⟨t', fun h => ha (h ▸ hactor), aside_step hs (.inl hactor)⟩

theorem flat_of_other (h : Good s) (hs : step s a = some s') (ha : a.actor ≠ some κ.1) :
    s'.flat κ = s.flat κ := by
  obtain ⟨t', ht, hA⟩ := aside_of_other hs ha
  refine St.flat_eq (hA.origin κ ht) ?_
  cases effect_step h hs with
  | none _ hA | destroy _ _ _ hA => rw [hA.ghost]
  | create κ' _ _ hactor _ hA =>
    have hne : κ ≠ κ' := by
      rintro rfl
      exact ha hactor
    simp [hA.ghost, addEntry, Function.update_of_ne hne]
  | store t u _ _ _ hghost =>
    have hne : κ ≠ (t, u) := by
      rintro rfl
      exact ha rfl
    rw [hghost, Function.update_of_ne hne]
  | write _ _ _ _ hA | writeBack _ _ _ _ _ _ _ _ hA => rw [hA.ghost, (flat_writeFile κ).1]
  | deny _ _ _ hghost => rw [hghost]

end Vm
end Pintos
