import Pintos.Devices.Block
import Pintos.Lib.Action

/-!
# Partition tables

`partition_scan` of `devices/partition.c`, on a device with any content. `read_partition_table` calls itself for every
extended partition, with the sector of the table that it is to read; but it reads sector 0 again each time. The
nesting of the calls is bounded by a number of turns, and a scan that needs more is `running`. Memory for the tables
and the descriptors is always there.

* `not_ok_of_closed` — a set of calls each of which makes another one of the set: none of them returns;
* `scan_ok` — a scan that meets no extended table twice returns, and what it registers is in the device;
* `scan_correct_iff` — when the scan is right.
-/

namespace Pintos
namespace Devices
namespace Partition

open Pintos.Action

/-- `struct partition_table_entry`, without the fields that nothing reads. -/
structure Entry where
  type : ℕ
  offset : ℕ
  size : ℕ
  deriving DecidableEq, Repr

/-- The entry at the start of these bytes. -/
def Entry.ofBytes (l : List UInt8) : Entry where
  type := ofLeBytes ((l.drop 4).take 1)
  offset := ofLeBytes ((l.drop 8).take 4)
  size := ofLeBytes ((l.drop 12).take 4)

/-- `pt->partitions`. -/
def partitions (pt : List UInt8) : List Entry := (List.range 4).map fun i => .ofBytes (pt.drop (446 + 16 * i))

/-- `pt->signature`. -/
def signature (pt : List UInt8) : ℕ := ofLeBytes ((pt.drop 510).take 2)

/-- The entry stands for something. -/
def Entry.Used (e : Entry) : Prop := ¬ (e.size = 0 ∨ e.type = 0)

/-- The types that stand for a table of further partitions. -/
def Entry.Extended (e : Entry) : Prop := e.type = 0x05 ∨ e.type = 0x0f ∨ e.type = 0x85 ∨ e.type = 0xc5

instance (e : Entry) : Decidable e.Used := inferInstanceAs (Decidable (¬ _))

instance (e : Entry) : Decidable e.Extended := inferInstanceAs (Decidable (_ ∨ _))

/-- `enum block_type`, as far as partitions have it. -/
inductive BlockType
  | kernel
  | filesys
  | scratch
  | swap
  | foreign
  deriving DecidableEq, Repr

/-- The messages about the table and its partitions. -/
inductive Message
  | tablePastEnd (sector : ℕ)
  | invalidSignature
  | invalidExtended (sector : ℕ)
  | extended (sector : ℕ)
  | startsPastEnd (partNr start : ℕ)
  | endsPastEnd (partNr stop size : ℕ)
  | noPartitions
  deriving DecidableEq, Repr

/-- A partition that has been registered: its number and type, and the sectors of the device that it has. -/
structure Registered where
  partNr : ℕ
  partType : ℕ
  type : BlockType
  start : ℕ
  size : ℕ
  -- The sector that was given for the table it was found in.
  via : ℕ
  deriving DecidableEq, Repr

/-- The state of a scan. -/
structure Scan where
  partNr : ℕ
  messages : List Message
  registered : List Registered
  -- The sectors that have been read.
  reads : List ℕ
  -- The sectors that were given for the tables.
  tables : List ℕ
  deriving DecidableEq, Repr

/-- The table of a sector is entered, and sector 0 is read for it. -/
def Scan.enter (sector : ℕ) (s : Scan) : Scan :=
  { s with tables := s.tables ++ [sector], reads := s.reads ++ [0] }

/-- A function of a scan. -/
abbrev Op := StateT Scan (Except Halt)

/-- `printf`. -/
def say (m : Message) : Op Unit := modify fun s => { s with messages := s.messages ++ [m] }

/-- The type that `found_partition` registers. -/
def blockType (partType : ℕ) : BlockType :=
  if partType = 0x20 then .kernel
  else if partType = 0x21 then .filesys
  else if partType = 0x22 then .scratch
  else if partType = 0x23 then .swap
  else .foreign

/-- `found_partition`, for a partition of the table in the sector `via`. -/
def foundPartition (dev : Device) (via partType start size partNr : ℕ) : Op Unit :=
  if dev.size ≤ start then say (.startsPastEnd partNr start)
  else if (start + size) % 2 ^ 32 < start ∨ dev.size < (start + size) % 2 ^ 32 then
    say (.endsPastEnd partNr ((start + size) % 2 ^ 32) dev.size)
  else modify fun s => { s with
    registered := s.registered ++ [⟨partNr, partType, blockType partType, start, size, via⟩] }

/-- A turn of the loop of `read_partition_table`. -/
def readEntry (dev : Device) (readTable : ℕ → ℕ → Op Unit) (sector primaryExtendedSector : ℕ) (e : Entry) :
    Op Unit := do
  if ¬ e.Used then return
  else if e.Extended then
    say (.extended sector)
    if sector = 0 then readTable e.offset e.offset
    else readTable ((e.offset + primaryExtendedSector) % 2 ^ 32) primaryExtendedSector
  else
    modify fun s => { s with partNr := s.partNr + 1 }
    let s ← get
    foundPartition dev sector e.type ((e.offset + sector) % 2 ^ 32) e.size s.partNr

/-- `read_partition_table`, nested at most `n` deep. -/
def readPartitionTable (dev : Device) : ℕ → ℕ → ℕ → Op Unit
  | 0, _, _ => throw .running
  | n + 1, sector, primaryExtendedSector => do
    if dev.size ≤ sector then say (.tablePastEnd sector)
    else
      modify (Scan.enter sector)
      let pt ← dev.blockRead 0
      if signature pt ≠ 0xaa55 then
        say (if primaryExtendedSector = 0 then .invalidSignature else .invalidExtended sector)
      else (partitions pt).forM (readEntry dev (readPartitionTable dev n) sector primaryExtendedSector)

/-- `partition_scan`. -/
def partitionScan (dev : Device) (n : ℕ) : Op Unit := do
  readPartitionTable dev n 0 0
  let s ← get
  if s.partNr = 0 then say .noPartitions

/-- Before the scan. -/
def Scan.start : Scan := ⟨0, [], [], [], []⟩

/-! ### What a scan should be -/

/-- The partition is an entry of the table in the sector that it was reached through. -/
def Registered.TakenFrom (dev : Device) (r : Registered) : Prop :=
  signature (dev.sector r.via) = 0xaa55 ∧
    ∃ e ∈ partitions (dev.sector r.via), e.type = r.partType ∧ (e.offset + r.via) % 2 ^ 32 = r.start ∧ e.size = r.size

/-- Nothing outside the device is read or registered, and what is registered comes from its own table. -/
structure Scan.Sound (dev : Device) (s : Scan) : Prop where
  reads : ∀ i ∈ s.reads, i < dev.size
  inside : ∀ r ∈ s.registered, r.start + r.size ≤ dev.size
  taken : ∀ r ∈ s.registered, r.TakenFrom dev

/-- The scan returns. Its calls are nested at most once more than there are different tables (the last call may find
its table past the end of the device). -/
def ScanCorrect (dev : Device) : Prop :=
  ∃ n s, partitionScan dev n .start = .ok ((), s) ∧ n ≤ s.tables.dedup.length + 1 ∧ s.Sound dev

/-- Every extended partition that lies in the device: taken for its table, the table of sector 0 leads no further,
and each partition it yields is in the table that should have been read. -/
def Orderly (dev : Device) : Prop :=
  ∀ e ∈ partitions (dev.sector 0), e.Used → e.Extended → e.offset < dev.size →
    e.offset ≠ 0 ∧
    (∀ e' ∈ partitions (dev.sector 0), e'.Used → e'.Extended → dev.size ≤ (e'.offset + e.offset) % 2 ^ 32) ∧
    (∀ e' ∈ partitions (dev.sector 0), e'.Used → ¬ e'.Extended →
      (e'.offset + e.offset) % 2 ^ 32 + e'.size ≤ dev.size →
      signature (dev.sector e.offset) = 0xaa55 ∧ e' ∈ partitions (dev.sector e.offset))

/-! ### The parts of a call -/

variable {dev : Device} {s s' : Scan} {n sector primary : ℕ} {e : Entry}

/-- The arguments of the call for an extended partition. -/
def nextTable (sector primary : ℕ) (e : Entry) : ℕ × ℕ :=
  if sector = 0 then (e.offset, e.offset) else ((e.offset + primary) % 2 ^ 32, primary)

theorem readTable_past (h : dev.size ≤ sector) :
    readPartitionTable dev (n + 1) sector primary s =
      .ok ((), { s with messages := s.messages ++ [.tablePastEnd sector] }) := by
  rw [readPartitionTable, if_pos h]
  rfl

/-- Inside the device it is sector 0 that is read. -/
theorem readTable_of_lt (h : sector < dev.size) :
    readPartitionTable dev (n + 1) sector primary s =
      (if signature (dev.sector 0) ≠ 0xaa55 then
        say (if primary = 0 then .invalidSignature else .invalidExtended sector)
      else (partitions (dev.sector 0)).forM (readEntry dev (readPartitionTable dev n) sector primary))
        (s.enter sector) := by
  rw [readPartitionTable, if_neg (by omega), bind_of_ok (modify_apply _),
    bind_of_ok (lift_apply (Device.blockRead_of_lt (by omega)))]

theorem readTable_of_valid (h : sector < dev.size) (hsig : signature (dev.sector 0) = 0xaa55) :
    readPartitionTable dev (n + 1) sector primary s =
      (partitions (dev.sector 0)).forM (readEntry dev (readPartitionTable dev n) sector primary)
        (s.enter sector) := by
  rw [readTable_of_lt h, if_neg (not_not_intro hsig)]

theorem readEntry_of_not_used {readTable : ℕ → ℕ → Op Unit} (h : ¬ e.Used) :
    readEntry dev readTable sector primary e s = .ok ((), s) := by
  rw [readEntry, if_pos h]
  rfl

theorem readEntry_of_extended {readTable : ℕ → ℕ → Op Unit} (h : e.Used) (hext : e.Extended) :
    readEntry dev readTable sector primary e s =
      readTable (nextTable sector primary e).1 (nextTable sector primary e).2
        { s with messages := s.messages ++ [.extended sector] } := by
  rw [readEntry, if_neg (not_not_intro h), if_pos hext, say, bind_of_ok (modify_apply _), nextTable]
  split <;> rfl

theorem readEntry_of_plain {readTable : ℕ → ℕ → Op Unit} (h : e.Used) (hext : ¬ e.Extended) :
    readEntry dev readTable sector primary e s =
      foundPartition dev sector e.type ((e.offset + sector) % 2 ^ 32) e.size (s.partNr + 1)
        { s with partNr := s.partNr + 1 } := by
  rw [readEntry, if_neg (not_not_intro h), if_neg hext, bind_of_ok (modify_apply _), bind_of_ok get_apply]

/-- A partition is registered if and only if it lies in the device. -/
theorem foundPartition_eq (dev : Device) {via partType start size partNr : ℕ} (hpos : size ≠ 0) (hsize : size < 2 ^ 32) :
    (start + size ≤ dev.size ∧ foundPartition dev via partType start size partNr s =
      .ok ((), { s with registered := s.registered ++ [⟨partNr, partType, blockType partType, start, size, via⟩] })) ∨
    (dev.size < start + size ∧ ∃ m, foundPartition dev via partType start size partNr s =
      .ok ((), { s with messages := s.messages ++ [m] })) := by
  have hbound := dev.bound
  rw [foundPartition]
  by_cases hstart : dev.size ≤ start
  · rw [if_pos hstart]
    exact .inr ⟨by omega, _, rfl⟩
  by_cases hend : (start + size) % 2 ^ 32 < start ∨ dev.size < (start + size) % 2 ^ 32
  · rw [if_neg hstart, if_pos hend]
    exact .inr ⟨by omega, _, rfl⟩
  · rw [if_neg hstart, if_neg hend]
    exact .inl ⟨by omega, rfl⟩

theorem ofLeBytes_take_lt (l : List UInt8) : ofLeBytes (l.take 4) < 2 ^ 32 := by
  calc ofLeBytes (l.take 4) < 256 ^ (l.take 4).length := ofLeBytes_lt _
    _ ≤ 256 ^ 4 := Nat.pow_le_pow_right (by decide) (List.length_take_le _ _)
    _ = 2 ^ 32 := by decide

/-- The fields of an entry have 32 bits. -/
theorem bounds_of_mem {pt : List UInt8} (h : e ∈ partitions pt) : e.offset < 2 ^ 32 ∧ e.size < 2 ^ 32 := by
  obtain ⟨i, -, rfl⟩ := List.mem_map.mp h
  exact ⟨ofLeBytes_take_lt _, ofLeBytes_take_lt _⟩

/-! ### Scans only add -/

/-- Nothing that has been registered or entered is taken back. -/
structure Scan.Grows (s s' : Scan) : Prop where
  tables : s.tables ⊆ s'.tables
  registered : s.registered ⊆ s'.registered

theorem Scan.Grows.refl (s : Scan) : s.Grows s := ⟨List.Subset.refl _, List.Subset.refl _⟩

theorem Scan.Grows.trans {s t u : Scan} (h : s.Grows t) (h' : t.Grows u) : s.Grows u :=
  ⟨List.Subset.trans h.tables h'.tables, List.Subset.trans h.registered h'.registered⟩

theorem readEntry_grows {readTable : ℕ → ℕ → Op Unit} (he : e ∈ partitions (dev.sector 0))
    (hread : ∀ sector primary s, Allows (readTable sector primary) s fun _ s' => s.Grows s') (s : Scan) :
    Allows (readEntry dev readTable sector primary e) s fun _ s' => s.Grows s' := by
  intro u s' hok
  by_cases hused : e.Used
  · by_cases hext : e.Extended
    · rw [readEntry_of_extended hused hext] at hok
      exact ⟨(hread _ _ _ _ _ hok).tables, (hread _ _ _ _ _ hok).registered⟩
    · rw [readEntry_of_plain hused hext] at hok
      rcases foundPartition_eq dev (not_or.mp hused).1 (bounds_of_mem he).2 with
        ⟨-, heq⟩ | ⟨-, m, heq⟩
      · cases heq.symm.trans hok
        exact ⟨List.Subset.refl _, List.subset_append_left _ _⟩
      · cases heq.symm.trans hok
        exact ⟨List.Subset.refl _, List.Subset.refl _⟩
  · rw [readEntry_of_not_used hused] at hok
    cases hok
    exact .refl s

theorem grows_enter (s : Scan) : s.Grows (s.enter sector) := ⟨List.subset_append_left _ _, List.Subset.refl _⟩

/-- A call inside the device enters its table first. -/
theorem enter_grows (hread : ∀ sector primary s, Allows (readPartitionTable dev n sector primary) s fun _ s' => s.Grows s')
    (hlt : sector < dev.size) (s : Scan) :
    Allows (readPartitionTable dev (n + 1) sector primary) s fun _ s' => (s.enter sector).Grows s' := by
  intro u s' hok
  rw [readTable_of_lt hlt] at hok
  split at hok
  · cases hok
    exact ⟨List.Subset.refl _, List.Subset.refl _⟩
  · exact Allows.forM (I := (s.enter sector).Grows)
      (fun e he t ht => (readEntry_grows he hread t).mono fun _ t' h => ht.trans h) (.refl _) _ _ hok

theorem readTable_grows (n sector primary : ℕ) (s : Scan) :
    Allows (readPartitionTable dev n sector primary) s fun _ s' => s.Grows s' := by
  induction n generalizing sector primary s with
  | zero => exact .throw _
  | succ n ih =>
    rcases Nat.lt_or_ge sector dev.size with hlt | hge
    · exact (enter_grows ih hlt s).mono fun _ s' h => (grows_enter s).trans h
    · intro u s' hok
      rw [readTable_past hge] at hok
      cases hok
      exact ⟨List.Subset.refl _, List.Subset.refl _⟩

/-- A call that returns has made each of its turns. -/
theorem exists_turn (hlt : sector < dev.size) (hsig : signature (dev.sector 0) = 0xaa55)
    (hok : readPartitionTable dev (n + 1) sector primary s = .ok ((), s')) (he : e ∈ partitions (dev.sector 0)) :
    ∃ t t', readEntry dev (readPartitionTable dev n) sector primary e t = .ok ((), t') ∧ t'.Grows s' := by
  rw [readTable_of_valid hlt hsig] at hok
  obtain ⟨t, t', -, hturn, hgrows⟩ := exists_turn_of_forM Scan.Grows.refl (fun _ _ _ => Scan.Grows.trans)
    (fun e he t => readEntry_grows he (readTable_grows n) t) hok he
  exact ⟨t, t', hturn, hgrows⟩

/-! ### Scans that do not return -/

/-- **Divergence.** A set of calls each of which makes another one of the set: however deep they may be nested, none
of them returns. -/
theorem not_ok_of_closed (Bad : ℕ → ℕ → Prop) (hsig : signature (dev.sector 0) = 0xaa55)
    (hbad : ∀ sector primary, Bad sector primary → sector < dev.size ∧ ∃ e ∈ partitions (dev.sector 0),
      e.Used ∧ e.Extended ∧ Bad (nextTable sector primary e).1 (nextTable sector primary e).2)
    (h : Bad sector primary) : readPartitionTable dev n sector primary s ≠ .ok ((), s') := by
  induction n generalizing sector primary s s' with
  | zero =>
    intro hok
    cases hok
  | succ n ih =>
    intro hok
    obtain ⟨hlt, e, he, hused, hext, hnext⟩ := hbad _ _ h
    obtain ⟨t, t', hturn, -⟩ := exists_turn hlt hsig hok he
    rw [readEntry_of_extended hused hext] at hturn
    exact ih hnext hturn

theorem scan_eq_ok (h : partitionScan dev n s = .ok ((), s')) :
    ∃ t, readPartitionTable dev n 0 0 s = .ok ((), t) ∧ s'.registered = t.registered := by
  obtain ⟨⟨⟩, t, ht, hrest⟩ := bind_eq_ok.mp h
  rw [bind_of_ok get_apply] at hrest
  refine ⟨t, ht, ?_⟩
  split at hrest <;> cases hrest <;> rfl

/-- A partition of the table that a call inside the device goes through, in the device itself: it is registered. -/
theorem mem_registered (hlt : sector < dev.size) (hsig : signature (dev.sector 0) = 0xaa55)
    (hok : readPartitionTable dev n sector primary s = .ok ((), s')) (he : e ∈ partitions (dev.sector 0))
    (hused : e.Used) (hext : ¬ e.Extended) (hin : (e.offset + sector) % 2 ^ 32 + e.size ≤ dev.size) :
    ∃ r ∈ s'.registered, r.via = sector ∧ r.partType = e.type ∧ r.start = (e.offset + sector) % 2 ^ 32 ∧
      r.size = e.size := by
  cases n with
  | zero => cases hok
  | succ n =>
    obtain ⟨t, t', hturn, hgrows⟩ := exists_turn hlt hsig hok he
    rw [readEntry_of_plain hused hext] at hturn
    rcases foundPartition_eq dev (not_or.mp hused).1 (bounds_of_mem he).2 with ⟨-, heq⟩ | ⟨hout, -⟩
    · cases heq.symm.trans hturn
      exact ⟨_, hgrows.registered (List.mem_append_right _ (List.mem_singleton_self _)), rfl, rfl, rfl, rfl⟩
    · exact absurd hin (by omega)

/-- A scan that is right finds the tables in order. -/
theorem orderly_of_correct (hsig : signature (dev.sector 0) = 0xaa55) (h : ScanCorrect dev) : Orderly dev := by
  obtain ⟨n, s, hscan, -, hsound⟩ := h
  obtain ⟨t, hok, hreg⟩ := scan_eq_ok hscan
  intro e he hused hext hlt
  have hsize : 0 < dev.size := by omega
  have hne : e.offset ≠ 0 := by
    -- the call for sector 0 makes the same call again
    intro h0
    refine not_ok_of_closed (fun sector _ => sector = 0) hsig ?_ rfl hok
    rintro _ primary rfl
    exact ⟨hsize, e, he, hused, hext, h0⟩
  refine ⟨hne, ?_, ?_⟩
  · -- the call for the second table makes the same call again, or the one for sector 0
    intro e' he' hused' hext'
    by_contra hin
    refine not_ok_of_closed (fun sector primary => sector = 0 ∨
      primary = e.offset ∧ (sector = e.offset ∨ sector = (e'.offset + e.offset) % 2 ^ 32)) hsig ?_ (.inl rfl) hok
    intro sector primary hbad
    by_cases h0 : sector = 0
    · refine ⟨by omega, e, he, hused, hext, ?_⟩
      rw [nextTable, if_pos h0]
      exact .inr ⟨rfl, .inl rfl⟩
    · obtain ⟨rfl, hsector⟩ := hbad.resolve_left h0
      refine ⟨by omega, e', he', hused', hext', ?_⟩
      rw [nextTable, if_neg h0]
      exact .inr ⟨rfl, .inr rfl⟩
  · intro e' he' hused' hext' hin
    cases n with
    | zero => cases hok
    | succ n =>
      obtain ⟨u, u', hturn, hgrows⟩ := exists_turn hsize hsig hok he
      rw [readEntry_of_extended hused hext, nextTable, if_pos rfl] at hturn
      obtain ⟨r, hr, hvia, htype, hstart, hrsize⟩ := mem_registered hlt hsig hturn he' hused' hext' hin
      have hmem : r ∈ s.registered := by
        rw [hreg]
        exact hgrows.registered hr
      obtain ⟨hsig', e₀, he₀, htype₀, hstart₀, hsize₀⟩ := hsound.taken r hmem
      rw [hvia] at hsig' he₀ hstart₀
      -- the sum determines the offset
      have hoff : e₀.offset = e'.offset := by
        have := (bounds_of_mem he₀).1
        have := (bounds_of_mem he').1
        have := dev.bound
        omega
      obtain rfl : e₀ = e' := by
        obtain ⟨type₀, offset₀, size₀⟩ := e₀
        obtain ⟨type', offset', size'⟩ := e'
        simp only at htype₀ htype hoff hsize₀ hrsize
        rw [htype₀, htype, hoff, hsize₀, hrsize]
      exact ⟨hsig', he₀⟩

/-! ### Scans that return -/

theorem foundPartition_ok (via partType start partNr : ℕ) {size : ℕ} (h : s.Sound dev) (hpos : size ≠ 0)
    (hsize : size < 2 ^ 32)
    (htaken : start + size ≤ dev.size →
      (⟨partNr, partType, blockType partType, start, size, via⟩ : Registered).TakenFrom dev) :
    Ensures (foundPartition dev via partType start size partNr) s fun _ s' => s'.Sound dev := by
  rcases foundPartition_eq dev (s := s) hpos hsize with ⟨hin, heq⟩ | ⟨-, m, heq⟩
  · refine .of_eq heq ⟨h.reads, fun r hr => ?_, fun r hr => ?_⟩
    · rcases List.mem_append.mp hr with hr | hr
      · exact h.inside r hr
      · rw [List.mem_singleton.mp hr]
        exact hin
    · rcases List.mem_append.mp hr with hr | hr
      · exact h.taken r hr
      · rw [List.mem_singleton.mp hr]
        exact htaken hin
  · exact .of_eq heq ⟨h.reads, h.inside, h.taken⟩

/-- A call inside the device, if the calls that it makes return and what it finds is in the table it should have
read. -/
theorem readTable_ok (primary : ℕ) (h : s.Sound dev) (hlt : sector < dev.size) (hsig : signature (dev.sector 0) = 0xaa55)
    (hcalls : ∀ e ∈ partitions (dev.sector 0), e.Used → e.Extended → ∀ s : Scan, s.Sound dev →
      Ensures (readPartitionTable dev n (nextTable sector primary e).1 (nextTable sector primary e).2) s
        fun _ s' => s'.Sound dev)
    (hplain : ∀ e ∈ partitions (dev.sector 0), e.Used → ¬ e.Extended →
      (e.offset + sector) % 2 ^ 32 + e.size ≤ dev.size →
      signature (dev.sector sector) = 0xaa55 ∧ e ∈ partitions (dev.sector sector)) :
    Ensures (readPartitionTable dev (n + 1) sector primary) s fun _ s' => s'.Sound dev := by
  have hadd : (s.enter sector).Sound dev := by
    refine ⟨fun i hi => ?_, h.inside, h.taken⟩
    rcases List.mem_append.mp hi with hi | hi
    · exact h.reads i hi
    · rw [List.mem_singleton.mp hi]
      omega
  obtain ⟨u, s', hok, hs'⟩ : Ensures ((partitions (dev.sector 0)).forM
      (readEntry dev (readPartitionTable dev n) sector primary)) _ fun _ s' => s'.Sound dev := by
    refine .forM (fun e he t ht => ?_) hadd
    by_cases hused : e.Used
    · by_cases hext : e.Extended
      · obtain ⟨u, t', hok, ht'⟩ := hcalls e he hused hext
          { t with messages := t.messages ++ [.extended sector] } ⟨ht.reads, ht.inside, ht.taken⟩
        exact .of_eq ((readEntry_of_extended hused hext).trans hok) ht'
      · obtain ⟨u, t', hok, ht'⟩ := foundPartition_ok (s := { t with partNr := t.partNr + 1 }) sector e.type
          ((e.offset + sector) % 2 ^ 32) (t.partNr + 1) ⟨ht.reads, ht.inside, ht.taken⟩ (not_or.mp hused).1
          (bounds_of_mem he).2 (fun hin => ⟨(hplain e he hused hext hin).1, e, (hplain e he hused hext hin).2, rfl, rfl, rfl⟩)
        exact .of_eq ((readEntry_of_plain hused hext).trans hok) ht'
    · exact .of_eq (readEntry_of_not_used hused) ht
  exact .of_eq ((readTable_of_valid hlt hsig).trans hok) hs'

theorem readTable_past_ok (h : s.Sound dev) (hge : dev.size ≤ sector) :
    Ensures (readPartitionTable dev (n + 1) sector primary) s fun _ s' => s'.Sound dev :=
  .of_eq (readTable_past hge) ⟨h.reads, h.inside, h.taken⟩

/-- A call inside the device enters its sector. -/
theorem mem_tables (hlt : sector < dev.size)
    (hok : readPartitionTable dev n sector primary s = .ok ((), s')) : sector ∈ s'.tables := by
  cases n with
  | zero => cases hok
  | succ n =>
    exact (enter_grows (readTable_grows n) hlt s _ _ hok).tables
      (List.mem_append_right _ (List.mem_singleton_self _))

theorem two_le_dedup {l : List ℕ} {a b : ℕ} (ha : a ∈ l) (hb : b ∈ l) (hne : a ≠ b) : 2 ≤ l.dedup.length := by
  have hnodup : [a, b].Nodup := List.nodup_cons.mpr ⟨by simpa using hne, List.nodup_singleton b⟩
  refine (List.Nodup.subperm hnodup (?_ : [a, b] ⊆ l.dedup)).length_le
  intro c hc
  rw [List.mem_dedup]
  rcases List.mem_cons.mp hc with rfl | hc
  · exact ha
  · rw [List.mem_singleton.mp hc]
    exact hb

/-- The call for sector 0 returns, and it is nested no deeper than there are tables. -/
theorem scan_ok (h : signature (dev.sector 0) = 0xaa55 → Orderly dev) :
    ∃ n s, readPartitionTable dev n 0 0 .start = .ok ((), s) ∧ n ≤ s.tables.dedup.length + 1 ∧ s.Sound dev := by
  have hstart : Scan.start.Sound dev :=
    ⟨fun i hi => absurd hi List.not_mem_nil, fun r hr => absurd hr List.not_mem_nil,
      fun r hr => absurd hr List.not_mem_nil⟩
  rcases Nat.eq_zero_or_pos dev.size with h0 | hpos
  · exact ⟨1, _, readTable_past (by omega), Nat.le_add_left .., hstart.reads, hstart.inside, hstart.taken⟩
  by_cases hsig : signature (dev.sector 0) = 0xaa55
  · have hplain : ∀ e ∈ partitions (dev.sector 0), e.Used → ¬ e.Extended →
        (e.offset + 0) % 2 ^ 32 + e.size ≤ dev.size →
        signature (dev.sector 0) = 0xaa55 ∧ e ∈ partitions (dev.sector 0) := fun e he _ _ _ => ⟨hsig, he⟩
    by_cases hin : ∃ e ∈ partitions (dev.sector 0), e.Used ∧ e.Extended ∧ e.offset < dev.size
    · -- two levels of tables, and below them calls that lead out of the device
      obtain ⟨e, he, hused, hext, hlt⟩ := hin
      obtain ⟨u, s, hok, hs⟩ := readTable_ok (n := 2) 0 hstart hpos hsig (fun e he hused hext t ht => by
        rw [nextTable, if_pos rfl]
        rcases Nat.lt_or_ge e.offset dev.size with hlt | hge
        · obtain ⟨hne, hout, htables⟩ := h hsig e he hused hext hlt
          refine readTable_ok _ ht hlt hsig (fun e' he' hused' hext' t' ht' => ?_) htables
          rw [nextTable, if_neg hne]
          exact readTable_past_ok ht' (hout e' he' hused' hext')
        · exact readTable_past_ok ht hge) hplain
      refine ⟨3, s, hok, ?_, hs⟩
      obtain ⟨t, t', hturn, hgrows⟩ := exists_turn hpos hsig hok he
      rw [readEntry_of_extended hused hext, nextTable, if_pos rfl] at hturn
      have hmem := hgrows.tables (mem_tables hlt hturn)
      have := two_le_dedup (mem_tables hpos hok) hmem (Ne.symm (h hsig e he hused hext hlt).1)
      omega
    · obtain ⟨u, s, hok, hs⟩ := readTable_ok (n := 1) 0 hstart hpos hsig (fun e he hused hext t ht => by
        rw [nextTable, if_pos rfl]
        exact readTable_past_ok ht (Nat.le_of_not_lt fun hlt => hin ⟨e, he, hused, hext, hlt⟩)) hplain
      refine ⟨2, s, hok, ?_, hs⟩
      have := List.length_pos_of_mem (List.mem_dedup.mpr (mem_tables hpos hok))
      omega
  · refine ⟨1, _, (readTable_of_lt hpos).trans (by rw [if_pos hsig]; rfl), Nat.le_add_left .., ?_⟩
    refine ⟨fun i hi => ?_, hstart.inside, hstart.taken⟩
    rw [List.mem_singleton.mp hi]
    exact hpos

/-- **Partition scanning.** The scan of a device is right if and only if sector 0 holds no table, or every extended
partition of it that lies in the device is harmless: the entries of sector 0, taken for those of its table, lead out
of the device, and what they yield is in its own table as well. -/
theorem scan_correct_iff (dev : Device) :
    ScanCorrect dev ↔ (signature (dev.sector 0) = 0xaa55 → Orderly dev) := by
  refine ⟨fun h hsig => orderly_of_correct hsig h, fun h => ?_⟩
  obtain ⟨n, s, hok, hn, hs⟩ := scan_ok h
  by_cases hnr : s.partNr = 0
  · refine ⟨n, { s with messages := s.messages ++ [.noPartitions] }, ?_, hn, hs.reads, hs.inside, hs.taken⟩
    rw [partitionScan, bind_of_ok hok, bind_of_ok get_apply, if_pos hnr]
    rfl
  · refine ⟨n, s, ?_, hn, hs⟩
    rw [partitionScan, bind_of_ok hok, bind_of_ok get_apply, if_neg hnr]
    rfl

/-- A disk of 100 sectors with a partition in the sectors 1 to 10 and an extended partition from sector 40 on. -/
def extendedDisk : Device where
  size := 100
  bytes
    | 450 => 0x83
    | 454 => 1
    | 458 => 10
    | 466 => 0x05
    | 470 => 40
    | 474 => 60
    | 510 => 0x55
    | 511 => 0xaa
    | _ => 0
  bound := by decide

/-- The scan of this disk does not return: the call for the table in sector 40 reads sector 0 again and calls itself
for sector 80, and so does every call from there on. -/
theorem extendedDisk_not_correct :
    (∀ n s, partitionScan extendedDisk n .start ≠ .ok ((), s)) ∧ ¬ ScanCorrect extendedDisk := by
  have hsig : signature (extendedDisk.sector 0) = 0xaa55 := by decide +kernel
  have he : (⟨0x05, 40, 60⟩ : Entry) ∈ partitions (extendedDisk.sector 0) := by decide +kernel
  have hnever : ∀ n s, partitionScan extendedDisk n .start ≠ .ok ((), s) := by
    intro n s hok
    obtain ⟨t, ht, -⟩ := scan_eq_ok hok
    refine not_ok_of_closed (fun sector primary => sector = 0 ∨ primary = 40 ∧ (sector = 40 ∨ sector = 80))
      hsig ?_ (.inl rfl) ht
    rintro sector primary (rfl | ⟨rfl, rfl | rfl⟩)
    · exact ⟨by decide, _, he, by decide, by decide, .inr ⟨rfl, .inl rfl⟩⟩
    · exact ⟨by decide, _, he, by decide, by decide, by decide⟩
    · exact ⟨by decide, _, he, by decide, by decide, by decide⟩
  refine ⟨hnever, ?_⟩
  rintro ⟨n, s, hok, -, -⟩
  exact hnever n s hok

end Partition
end Devices
end Pintos
