import AuroraOs.Boot.Mb2Run
import AuroraOs.Mem.PageMapping

/-!
# The frames of a range

A range can be cut into frames in two ways: a loop that takes the largest frame from the front, and the
iterator of `iter`.  Both cut in the same places, but the iterator moves its start before it makes the
frame: in place of each frame it yields the one behind it.
-/

namespace AuroraOs

open Pages

/-- `PhysRangeIter` and `VirtRangeIter`. -/
structure RangeIter where
  start : ℕ
  end_ : ℕ
  deriving DecidableEq

namespace RangeIter

variable (A : AddrApi)

/-- `next`.  The frame is made of the new start. -/
def next (self : RangeIter) : Option (Option (Frame × RangeIter)) :=
  if self.start ≥ self.end_ then some none
  else do
    let rest ← A.diff self.end_ self.start
    let size := alignDownToPageSize (min (alignOf self.start) (1 <<< log2 rest))
    let start ← A.add self.start size
    let size ← PageSize.tryFromUsize size
    some (some (.new start size, ⟨start, self.end_⟩))

/-- A loop over the iterator: it ends after these frames, and nothing panics. -/
inductive Yields : RangeIter → List Frame → Prop
  | done {it : RangeIter} : it.next A = some none → Yields it []
  | next {it it' : RangeIter} {frame : Frame} {frames : List Frame} :
      it.next A = some (some (frame, it')) → Yields it' frames → Yields it (frame :: frames)

end RangeIter

/-- The frame of the same size right behind a frame. -/
def Frame.behind (f : Frame) : Frame := ⟨f.size, f.addr + f.size.bytes⟩

namespace AddrRange

variable (A : AddrApi)

/-- `iter`. -/
def iter (self : AddrRange) : Option RangeIter := do
  let end_ ← A.add self.addr self.size
  some ⟨self.addr, end_⟩

/-- A loop that takes the largest frame from the front of a range until there is none. -/
inductive Takes : AddrRange → List Frame → Prop
  | done {r : AddrRange} : r.getTakeSize = none → Takes r []
  | take {r r' : AddrRange} {size : PageSize} {frame : Frame} {frames : List Frame} :
      r.getTakeSize = some size → r.take A size = some (some (r', frame)) → Takes r' frames →
        Takes r (frame :: frames)

/-- The frames lie one after the other from `a` to `b`. -/
def Tiles (b : ℕ) : ℕ → List Frame → Prop
  | a, [] => a = b
  | a, frame :: frames => frame.addr = a ∧ Tiles b (a + frame.size.bytes) frames

/-- The frames taken from a range cover it, and each is aligned to its size. -/
structure Cuts (r : AddrRange) (frames : List Frame) : Prop where
  takes : r.Takes A frames
  tiles : Tiles (r.addr + r.size) r.addr frames
  aligned : ∀ frame ∈ frames, frame.size.bytes ∣ frame.addr

/-- The iterator yields what the taken frames become under `f`. -/
def Iterates (f : Frame → Frame) (r : AddrRange) : Prop :=
  ∃ frames, Cuts A r frames ∧ ∃ it, r.iter A = some it ∧ it.Yields A (frames.map f)

/-- Sums and differences of addresses of the range, its end included, are those of the integers. -/
structure Spans (a n : ℕ) : Prop where
  lt : a + n < usizeMod
  add : ∀ s k, a ≤ s → s + k ≤ a + n → A.add s k = some (s + k)
  diff : ∀ s, a ≤ s → s ≤ a + n → A.diff (a + n) s = some (a + n - s)

variable {A : AddrApi} {P : AddrApi} {V : VirtAddrApi} {r : AddrRange} {a b n : ℕ} {k : PageSize}

theorem spans_phys (hP : P.IsPhys) (h : a + n < 2 ^ 52) : Spans P a n where
  lt := by
    simp only [usizeMod]
    omega
  add s k _ hle := add_of_lt hP (by omega)
  diff s _ hle := by rw [hP.diff_eq, if_pos hle]

theorem spans_virt (hV : V.IsVirt) (h : a + n < 2 ^ 47 ∨ 2 ^ 64 - 2 ^ 47 ≤ a ∧ a + n < 2 ^ 64) :
    Spans V.toAddrApi a n where
  lt := by
    simp only [usizeMod]
    omega
  add s k hs hle := by
    rw [hV.add_eq, Nat.mod_eq_of_lt (by simp only [usizeMod]; omega), hV.new_of_canonical]
    unfold Canonical
    omega
  diff s _ hle := by rw [hV.diff_eq, if_pos hle]

theorem Spans.rest {m : ℕ} (h : Spans A a n) (hle : m ≤ n) : Spans A (a + m) (n - m) := by
  have hend : a + m + (n - m) = a + n := by omega
  constructor
  · rw [hend]
    exact h.lt
  · intro s k hs hk
    exact h.add s k (by omega) (by omega)
  · intro s hs hk
    rw [hend]
    exact h.diff s (by omega) (by omega)

/-! ### One frame -/

theorem tryFromUsize_eq {size : ℕ} (h : PageSize.tryFromUsize size = some k) : size = k.bytes := by
  unfold PageSize.tryFromUsize at h
  split_ifs at h with hk hm hg <;> obtain rfl := Option.some.inj h
  · exact hk
  · exact hm
  · exact hg

theorem tryFromUsize_bytes (k : PageSize) : PageSize.tryFromUsize k.bytes = some k := by
  cases k <;> rfl

/-- Rounding down to a power of two drops no page size. -/
theorem bytes_le_two_pow_log2 (hpos : 0 < n) : k.bytes ≤ 2 ^ log2 n ↔ k.bytes ≤ n := by
  refine ⟨fun h => h.trans (two_pow_log2_le hpos), fun h => ?_⟩
  obtain ⟨j, hj, -⟩ := k.bytes_eq_two_pow
  rw [hj] at h ⊢
  have hlt : 2 ^ j < 2 ^ (log2 n + 1) := h.trans_lt (lt_two_pow_log2_succ n)
  have hj' := (Nat.pow_lt_pow_iff_right (by decide)).1 hlt
  exact Nat.pow_le_pow_right (by decide) (by omega)

/-- The iterator and `get_take_size` find the same size. -/
theorem iterSize_eq (hpos : 0 < n) :
    PageSize.tryFromUsize (alignDownToPageSize (min (alignOf a) (1 <<< log2 n))) =
      getTakeSize ⟨a, n⟩ := by
  rw [tryFromUsize_alignDown, getTakeSize_eq, Nat.one_shiftLeft]
  unfold sizeUpTo
  congr 1
  funext k
  simp only [le_min_iff, bytes_le_two_pow_log2 hpos, and_comm]

/-- It is the largest one that the start is aligned to and that fits. -/
theorem getTakeSize_largest (ha : a < usizeMod) :
    getTakeSize ⟨a, n⟩ = largest PageSize.bytes PageSize.all a a n := by
  rw [getTakeSize_eq]
  unfold sizeUpTo largest
  congr 1
  funext k
  simp only [Fits, le_min_iff, bytes_le_alignOf_iff ha]
  exact decide_eq_decide.2 (by tauto)

section Step

variable (h : Spans A a n) (hlargest : largest PageSize.bytes PageSize.all a a n = some k)

include h hlargest

theorem take_front : getTakeSize ⟨a, n⟩ = some k ∧
    take A ⟨a, n⟩ k = some (some (⟨a + k.bytes, n - k.bytes⟩, ⟨k, a⟩)) := by
  obtain ⟨hd, -, hle⟩ := (largest_eq_some hlargest).2
  have ha : a < usizeMod := (Nat.le_add_right a n).trans_lt h.lt
  have hsize := (getTakeSize_largest ha).trans hlargest
  exact ⟨hsize, take_eq hsize le_rfl ha hd (h.add a _ le_rfl (by omega))⟩

/-- The iterator goes on behind the frame, but the frame that it yields begins there too. -/
theorem next_front :
    RangeIter.next A ⟨a, a + n⟩ = some (some (⟨k, a + k.bytes⟩, ⟨a + k.bytes, a + n⟩)) := by
  obtain ⟨hd, -, hle⟩ := (largest_eq_some hlargest).2
  have hpos := PageSize.units.bytes_pos k (PageSize.mem_all k)
  have hlt := h.lt
  have hsize : PageSize.tryFromUsize (alignDownToPageSize (min (alignOf a) (1 <<< log2 n))) = some k :=
    (iterSize_eq (by omega)).trans (take_front h hlargest).1
  have hdiff : A.diff (a + n) a = some n := by
    rw [h.diff a le_rfl (by omega), Nat.add_sub_cancel_left]
  rw [RangeIter.next, if_neg (by simp only; omega)]
  simp only [hdiff, Option.bind_eq_bind, Option.bind_some, tryFromUsize_eq hsize, tryFromUsize_bytes,
    h.add a k.bytes le_rfl (by omega), Frame.new]
  rw [alignDown_bytes (by omega) (hd.add dvd_rfl)]

end Step

/-! ### All frames -/

/-- **The frames of a range.**  The two loops cut it in the same places. -/
theorem Spans.frames (h : Spans A a n) (ha : PAGE_SIZE ∣ a) (hn : PAGE_SIZE ∣ n) :
    ∃ frames, Cuts A ⟨a, n⟩ frames ∧ RangeIter.Yields A ⟨a, a + n⟩ (frames.map Frame.behind) := by
  refine cut_induction PageSize.units (motive := fun p v n => p = v → Spans A v n → ∃ frames,
    Cuts A ⟨v, n⟩ frames ∧ RangeIter.Yields A ⟨v, v + n⟩ (frames.map Frame.behind)) ?_ ?_ ha ha hn rfl h
  · intro p v _ _
    refine ⟨[], ⟨.done getTakeSize_empty, rfl, by simp⟩, .done ?_⟩
    exact if_pos le_rfl
  · rintro p v n k hk hfits hlargest ih rfl h
    obtain ⟨hd, -, hle⟩ := hfits
    obtain ⟨frames, hcuts, hyields⟩ := ih rfl (h.rest hle)
    have hend : p + k.bytes + (n - k.bytes) = p + n := by omega
    rw [hend] at hyields
    obtain ⟨hsize, htake⟩ := take_front h hlargest
    refine ⟨⟨k, p⟩ :: frames, ⟨.take hsize htake hcuts.takes, ⟨rfl, ?_⟩, ?_⟩,
      .next (next_front h hlargest) hyields⟩
    · have htiles := hcuts.tiles
      simp only [hend] at htiles
      exact htiles
    · intro frame hframe
      rcases List.mem_cons.1 hframe with rfl | hframe
      · exact hd
      · exact hcuts.aligned frame hframe

theorem Spans.iterates (h : Spans A r.addr r.size) (ha : PAGE_SIZE ∣ r.addr) (hn : PAGE_SIZE ∣ r.size) :
    Iterates A Frame.behind r := by
  obtain ⟨frames, hcuts, hyields⟩ := h.frames ha hn
  exact ⟨frames, hcuts, ⟨r.addr, r.addr + r.size⟩, by rw [iter, h.add _ _ le_rfl le_rfl]; rfl, hyields⟩

/-! ### Which ranges are iterated over as they are cut -/

/-- The start of the range is an address, and a sum does not come back to it. -/
structure Moves (A : AddrApi) (a : ℕ) : Prop where
  lt : a < usizeMod
  zero : A.add a 0 = some a
  ne : ∀ (k : PageSize) (b : ℕ), k.bytes ∣ a → A.add a k.bytes = some b → alignDown b k.bytes ≠ a

theorem moves_phys (hP : P.IsPhys) (ha : a < 2 ^ 52) : Moves P a where
  lt := by
    simp only [usizeMod]
    omega
  zero := add_of_lt hP ha
  ne k b hd hadd := by
    have hpos := PageSize.units.bytes_pos k (PageSize.mem_all k)
    have hle : k.bytes ≤ 2 ^ 30 := by cases k <;> decide
    rw [hP.add_eq, Nat.mod_eq_of_lt (by simp only [usizeMod]; omega), hP.new_eq] at hadd
    split_ifs at hadd with hlt
    obtain rfl := Option.some.inj hadd
    rw [alignDown_bytes (by simp only [usizeMod]; omega) (hd.add dvd_rfl)]
    omega

theorem moves_virt (hV : V.IsVirt) (ha : Canonical a) : Moves V.toAddrApi a where
  lt := by
    unfold Canonical at ha
    simp only [usizeMod]
    omega
  zero := by
    rw [hV.add_eq, add_zero, Nat.mod_eq_of_lt (by unfold Canonical at ha; simp only [usizeMod]; omega),
      hV.new_of_canonical ha]
  ne k b hd hadd := by
    have hpos := PageSize.units.bytes_pos k (PageSize.mem_all k)
    obtain ⟨hle, hmoved, hwrap⟩ : k.bytes ≤ 2 ^ 30 ∧ k.bytes ∣ 2 ^ 64 - 2 ^ 48 ∧ k.bytes ∣ usizeMod := by
      cases k <;> decide
    have hsum := hd.add (dvd_refl k.bytes)
    have hlt : (a + k.bytes) % usizeMod < usizeMod := Nat.mod_lt _ (by decide)
    have hmod : k.bytes ∣ (a + k.bytes) % usizeMod := (Nat.dvd_mod_iff hwrap).2 hsum
    rw [hV.add_eq, hV.new_eq _ hlt] at hadd
    have hcases : b = (a + k.bytes) % usizeMod ∨
        b = (a + k.bytes) % usizeMod + (2 ^ 64 - 2 ^ 48) ∧ (a + k.bytes) % usizeMod < 2 ^ 48 := by
      split_ifs at hadd <;> have hb := Option.some.inj hadd <;> omega
    have hdb : k.bytes ∣ b := by
      rcases hcases with rfl | ⟨rfl, -⟩
      · exact hmod
      · exact hmod.add hmoved
    have hblt : b < usizeMod := by
      simp only [usizeMod] at hcases hlt ⊢
      omega
    rw [alignDown_bytes hblt hdb]
    unfold Canonical at ha
    simp only [usizeMod] at hcases
    omega

/-- No frame begins where the iterator was. -/
theorem Moves.next_addr {it it' : RangeIter} {frame : Frame} (hm : Moves A it.start)
    (h : it.next A = some (some (frame, it'))) : frame.addr ≠ it.start := by
  have hlt : ¬ it.start ≥ it.end_ := by
    intro hend
    rw [RangeIter.next, if_pos hend] at h
    cases h
  rw [RangeIter.next, if_neg hlt] at h
  obtain ⟨rest, -, h⟩ := Option.bind_eq_some_iff.1 h
  obtain ⟨b, hadd, h⟩ := Option.bind_eq_some_iff.1 h
  obtain ⟨k, hk, h⟩ := Option.bind_eq_some_iff.1 h
  simp only [Option.some.injEq, Prod.mk.injEq] at h
  obtain ⟨rfl, -⟩ := h
  rw [tryFromUsize_eq hk] at hadd
  rw [tryFromUsize_alignDown] at hk
  have hle : k.bytes ≤ min (alignOf it.start) (1 <<< log2 rest) := by simpa using List.find?_some hk
  exact hm.ne k b ((bytes_le_alignOf_iff hm.lt).1 (le_min_iff.1 hle).1) hadd

theorem Moves.size_zero_iff (hm : Moves A r.addr) : Iterates A id r ↔ r.size = 0 := by
  constructor
  · rintro ⟨frames, hcuts, it, hit, hyields⟩
    rw [List.map_id] at hyields
    obtain ⟨e, -, hit⟩ := Option.bind_eq_some_iff.1 hit
    obtain rfl := Option.some.inj hit
    have htiles := hcuts.tiles
    cases frames with
    | nil =>
      have hsame : r.addr = r.addr + r.size := htiles
      omega
    | cons frame frames =>
      cases hyields with
      | next hnext hrest => exact absurd htiles.1 (hm.next_addr hnext)
  · intro hsize
    obtain ⟨a, n⟩ := r
    obtain rfl : n = 0 := hsize
    refine ⟨[], ⟨.done getTakeSize_empty, rfl, by simp⟩, ⟨a, a⟩, ?_, .done (if_pos le_rfl)⟩
    rw [iter, hm.zero]
    rfl

/-- **Iterating over a range** of whole pages yields the frames that it is cut into exactly if it is empty.
Otherwise, if the end of the range is an address of the same half, it yields the frame behind each of
them. -/
theorem rangeIter_iff (hP : P.IsPhys) (hV : V.IsVirt) (hd : PAGE_SIZE ∣ r.addr) (hn : PAGE_SIZE ∣ r.size) :
    (r.addr < 2 ^ 52 → (Iterates P id r ↔ r.size = 0)) ∧
      (Canonical r.addr → (Iterates V.toAddrApi id r ↔ r.size = 0)) ∧
      (r.addr + r.size < 2 ^ 52 → Iterates P Frame.behind r) ∧
      (r.addr + r.size < 2 ^ 47 ∨ 2 ^ 64 - 2 ^ 47 ≤ r.addr ∧ r.addr + r.size < 2 ^ 64 →
        Iterates V.toAddrApi Frame.behind r) :=
  ⟨fun ha => (moves_phys hP ha).size_zero_iff, fun ha => (moves_virt hV ha).size_zero_iff,
    fun h => (spans_phys hP h).iterates hd hn, fun h => (spans_virt hV h).iterates hd hn⟩

/-- An empty range, and one with a large frame in the middle. -/
theorem rangeIter_iff_two : Iterates MemoryRegionType.physAddr id ⟨0x1000, 0⟩ ∧
    Iterates virtAddr.toAddrApi Frame.behind ⟨0x1ff000, 0x202000⟩ := by
  have hempty := @rangeIter_iff _ _ ⟨0x1000, 0⟩ MemoryRegionType.physAddr_isPhys virtAddr_isVirt
    (by decide) (by decide)
  have hlarge := @rangeIter_iff _ _ ⟨0x1ff000, 0x202000⟩ MemoryRegionType.physAddr_isPhys virtAddr_isVirt
    (by decide) (by decide)
  exact ⟨(hempty.1 (by decide)).2 rfl, hlarge.2.2.2 (Or.inl (by decide))⟩

/-- The iterator over a single frame yields the one behind it. -/
theorem rangeIter_fails : Takes MemoryRegionType.physAddr ⟨0x1000, 0x1000⟩ [⟨.k4, 0x1000⟩] ∧
    RangeIter.Yields MemoryRegionType.physAddr ⟨0x1000, 0x2000⟩ [⟨.k4, 0x2000⟩] ∧
    iter MemoryRegionType.physAddr ⟨0x1000, 0x1000⟩ = some ⟨0x1000, 0x2000⟩ ∧
    ¬ Iterates MemoryRegionType.physAddr id ⟨0x1000, 0x1000⟩ := by
  have hsize : getTakeSize ⟨0x1000, 0x1000⟩ = some .k4 := by decide
  have htake : take MemoryRegionType.physAddr ⟨0x1000, 0x1000⟩ .k4 =
      some (some (⟨0x2000, 0⟩, ⟨.k4, 0x1000⟩)) := by decide
  have hnext : RangeIter.next MemoryRegionType.physAddr ⟨0x1000, 0x2000⟩ =
      some (some (⟨.k4, 0x2000⟩, ⟨0x2000, 0x2000⟩)) := by decide
  refine ⟨.take hsize htake (.done getTakeSize_empty), .next hnext (.done (if_pos le_rfl)), by decide, ?_⟩
  intro h
  have hempty := (moves_phys MemoryRegionType.physAddr_isPhys (by decide)).size_zero_iff.1 h
  exact absurd hempty (by decide)

end AddrRange
end AuroraOs
