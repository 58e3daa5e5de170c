import AuroraOs.Lib.Pages
import AuroraOs.Mem.VirtAllocInvariant

/-!
# Mapping pages

`PageSize` and the frames of `kernel/src/mem/mod.rs`, and the iteration of `PageMappingIterator` of
`kernel/src/mem/virt_alloc.rs`: each zone is cut into frames, the largest that is aligned on both sides
first, and each frame becomes an action on the page tables.

The page tables are a function from virtual frames to what they are mapped to.
-/

namespace AuroraOs

open Pages

/-! ### Frames -/

/-- `PageSize`. -/
inductive PageSize
  | k4
  | m2
  | g1
  deriving DecidableEq

namespace PageSize

/-- The value of a size. -/
def bytes : PageSize → ℕ
  | .k4 => 0x1000
  | .m2 => 0x200000
  | .g1 => 0x40000000

theorem bytes_injective : Function.Injective bytes := by
  rintro (_ | _ | _) (_ | _ | _) h <;> first | rfl | simp [bytes] at h

/-- The derived order. -/
instance : LinearOrder PageSize := LinearOrder.lift' bytes bytes_injective

/-- `try_from_usize`. -/
def tryFromUsize (n : ℕ) : Option PageSize :=
  if n = 0x1000 then some .k4
  else if n = 0x200000 then some .m2
  else if n = 0x40000000 then some .g1
  else none

/-- The sizes, the largest one first. -/
def all : List PageSize := [.g1, .m2, .k4]

theorem units : Units bytes all PAGE_SIZE where
  pos := by decide
  dvd := by decide
  mem := ⟨.k4, by decide, rfl⟩
  bytes_pos := by decide

theorem mem_all (k : PageSize) : k ∈ all := by
  cases k <;> decide

theorem bytes_eq_two_pow (k : PageSize) : ∃ j, k.bytes = 2 ^ j ∧ j < 64 := by
  cases k
  · exact ⟨12, by decide⟩
  · exact ⟨21, by decide⟩
  · exact ⟨30, by decide⟩

end PageSize

/-- `align_down_to_page_size`. -/
def alignDownToPageSize (n : ℕ) : ℕ :=
  if n ≥ PageSize.g1.bytes then PageSize.g1.bytes
  else if n ≥ PageSize.m2.bytes then PageSize.m2.bytes
  else if n ≥ PageSize.k4.bytes then PageSize.k4.bytes
  else 0

/-- `PhysFrame` and `VirtFrame`. -/
structure Frame where
  size : PageSize
  addr : ℕ
  deriving DecidableEq

/-- `PhysFrame::new` and `VirtFrame::new`. -/
def Frame.new (addr : ℕ) (size : PageSize) : Frame := ⟨size, alignDown addr size.bytes⟩

namespace AddrRange

variable (A : AddrApi) (self : AddrRange)

/-- `get_take_size`. -/
def getTakeSize : Option PageSize :=
  PageSize.tryFromUsize (min (alignDownToPageSize self.size) (alignDownToPageSize (alignOf self.addr)))

/-- `take`. -/
def take (size : PageSize) : Option (Option (AddrRange × Frame)) :=
  match self.getTakeSize with
  | none => some none
  | some takeSize =>
      if size > takeSize then some none
      else do
        let addr ← A.add self.addr size.bytes
        some (some (⟨addr, self.size - size.bytes⟩, .new self.addr size))

end AddrRange

namespace Pmit

variable (P V : AddrApi) (self : Pmit)

/-- `get_take_size`. -/
def getTakeSize : Option PageSize := do
  some (min (← self.physZone.getTakeSize) (← self.virtZone.getTakeSize))

/-- `take`. -/
def take (size : PageSize) : Option (Option (Pmit × Frame × Frame)) :=
  match self.getTakeSize with
  | none => some none
  | some takeSize =>
      if size > takeSize then some none
      else do
        let (physZone, pframe) ← (← self.physZone.take P size)
        let (virtZone, vframe) ← (← self.virtZone.take V size)
        some (some (⟨physZone, virtZone, self.flags⟩, pframe, vframe))

end Pmit

/-! ### The iteration -/

/-- `PageMappingAction`. -/
inductive PageMappingAction
  | map (pframe vframe : Frame) (flags : PageTableFlags)
  | unmap (vframe : Frame)
  deriving DecidableEq

namespace PageMappingAction

/-- `virt_frame`. -/
def virtFrame : PageMappingAction → Frame
  | .map _ vframe _ => vframe
  | .unmap vframe => vframe

/-- The frames of an action are aligned to their size. -/
def Aligned : PageMappingAction → Prop
  | .map pframe vframe _ =>
      pframe.size = vframe.size ∧ vframe.size.bytes ∣ pframe.addr ∧ vframe.size.bytes ∣ vframe.addr
  | .unmap vframe => vframe.size.bytes ∣ vframe.addr

/-- What the action does to the page tables. -/
def edit : PageMappingAction → Edit Frame (Frame × PageTableFlags)
  | .map pframe vframe flags => .set vframe (pframe, flags)
  | .unmap vframe => .clear vframe

end PageMappingAction

namespace PageMappingIterator

variable (P V : AddrApi)

/-- `next`, with the zones from `pindex` on. -/
def next : List Pmit → Option (Option (PageMappingAction × List Pmit))
  | [] => some none
  | pmit :: zones =>
      match pmit.getTakeSize with
      | none => next zones
      | some size => do
          let (pmit, pframe, vframe) ← (← pmit.take P V size)
          some (some (if pmit.flags.present then .map pframe vframe pmit.flags else .unmap vframe,
            pmit :: zones))

/-- A loop over the iterator: it ends after these actions, and nothing panics. -/
inductive Yields : List Pmit → List PageMappingAction → Prop
  | done {zones : List Pmit} : next P V zones = some none → Yields zones []
  | next {zones zones' : List Pmit} {act : PageMappingAction} {acts : List PageMappingAction} :
      next P V zones = some (some (act, zones')) → Yields zones' acts → Yields zones (act :: acts)

end PageMappingIterator

/-- The page tables: what a virtual frame is mapped to, and with which flags. -/
abbrev Tables := Frame → Option (Frame × PageTableFlags)

/-- The page tables after actions. -/
def Tables.perform (t : Tables) (acts : List PageMappingAction) : Tables :=
  applyAll t (acts.map PageMappingAction.edit)

theorem Tables.perform_append (t : Tables) (acts acts' : List PageMappingAction) :
    t.perform (acts ++ acts') = (t.perform acts).perform acts' := by
  rw [perform, List.map_append, applyAll_append]
  rfl

theorem Tables.perform_unmap (t : Tables) (vframes : List Frame) :
    t.perform (vframes.map .unmap) = applyAll t (vframes.map .clear) := by
  rw [perform, List.map_map]
  rfl

theorem Tables.perform_map (t : Tables) (entries : List (Frame × Frame × PageTableFlags)) :
    t.perform (entries.map fun x => .map x.2.1 x.1 x.2.2) = applyAll t (entries.map fun x => .set x.1 x.2) := by
  rw [perform, List.map_map]
  rfl

/-! ### The frames of a zone -/

section Zone

variable {P : AddrApi} {V : VirtAddrApi} {p v n : ℕ} {f : PageTableFlags} {k : PageSize}

/-- A canonical address. -/
def Canonical (a : ℕ) : Prop := a < 2 ^ 47 ∨ 2 ^ 64 - 2 ^ 47 ≤ a ∧ a < 2 ^ 64

/-- A range in one half of the canonical addresses; it may end where the half does. -/
def InHalf (a n : ℕ) : Prop := a + n ≤ 2 ^ 47 ∨ 2 ^ 64 - 2 ^ 47 ≤ a ∧ a + n ≤ 2 ^ 64

/-- `VirtAddr::new` accepts the address that is stored in 64 bits. -/
def Accepted (a : ℕ) : Prop := a % usizeMod < 2 ^ 48 ∨ 2 ^ 64 - 2 ^ 47 ≤ a % usizeMod

instance (a : ℕ) : Decidable (Canonical a) := inferInstanceAs (Decidable (_ ∨ _))

instance (a n : ℕ) : Decidable (InHalf a n) := inferInstanceAs (Decidable (_ ∨ _))

theorem VirtAddrApi.IsVirt.new_of_canonical {a : ℕ} (hV : V.IsVirt) (h : Canonical a) : V.new a = some a := by
  unfold Canonical at h
  rw [hV.new_eq a (by simp only [usizeMod]; omega)]
  split_ifs
  · rfl
  · omega
  · omega
  · rfl

theorem accepted_of_canonical {a : ℕ} (h : Canonical a) : Accepted a := by
  unfold Canonical at h
  rw [Accepted, Nat.mod_eq_of_lt (by simp only [usizeMod]; omega)]
  omega

/-- `VirtAddr` takes an accepted sum, and does not move it if it is canonical. -/
theorem add_of_accepted {a n : ℕ} (hV : V.IsVirt) (h : Accepted (a + n)) :
    ∃ b, V.add a n = some b ∧ (Canonical (a + n) → b = a + n) := by
  by_cases hc : Canonical (a + n)
  · have hlt : a + n < usizeMod := by
      unfold Canonical at hc
      simp only [usizeMod]
      omega
    exact ⟨a + n, by rw [hV.add_eq, Nat.mod_eq_of_lt hlt, hV.new_of_canonical hc], fun _ => rfl⟩
  · have hsome : ∃ b, V.new ((a + n) % usizeMod) = some b := by
      rw [hV.new_eq _ (Nat.mod_lt _ (by decide))]
      unfold Accepted at h
      split_ifs
      · exact ⟨_, rfl⟩
      · exact ⟨_, rfl⟩
      · omega
      · exact ⟨_, rfl⟩
    obtain ⟨b, hb⟩ := hsome
    exact ⟨b, by rw [hV.add_eq, hb], fun hc' => absurd hc' hc⟩

theorem InHalf.accepted {a n : ℕ} (h : InHalf a n) : Accepted (a + n) := by
  by_cases hc : Canonical (a + n)
  · exact accepted_of_canonical hc
  · have hend : a + n = 2 ^ 47 ∨ a + n = 2 ^ 64 := by
      unfold InHalf at h
      unfold Canonical at hc
      omega
    rcases hend with hend | hend <;> rw [hend]
    exacts [Or.inl (by decide), Or.inl (by decide)]

theorem bytes_le_alignOf_iff (hp : p < usizeMod) : k.bytes ≤ alignOf p ↔ k.bytes ∣ p := by
  obtain ⟨i, hi⟩ := alignOf_eq_two_pow p
  obtain ⟨j, hj⟩ := k.bytes_eq_two_pow
  rcases Nat.eq_zero_or_pos p with rfl | hpos
  · exact iff_of_true (by cases k <;> decide) (dvd_zero _)
  constructor
  · intro hle
    rw [hi, hj.1] at hle
    have hle' := (Nat.pow_le_pow_iff_right (by decide)).1 hle
    rw [hj.1]
    exact (pow_dvd_pow 2 hle').trans (hi ▸ alignOf_dvd p)
  · intro hd
    rw [hj.1] at hd ⊢
    exact Nat.le_of_dvd (alignOf_pos p) (dvd_alignOf hpos hp hd)

/-- The largest size up to a bound. -/
def sizeUpTo (n : ℕ) : Option PageSize := PageSize.all.find? fun k => decide (k.bytes ≤ n)

theorem sizeUpTo_eq (n : ℕ) : sizeUpTo n = if n ≥ PageSize.g1.bytes then some .g1
    else if n ≥ PageSize.m2.bytes then some .m2 else if n ≥ PageSize.k4.bytes then some .k4 else none := by
  unfold sizeUpTo PageSize.all
  split_ifs with hg hm hk
  · simp [List.find?, hg]
  · simp [List.find?, hg, hm]
  · simp [List.find?, hg, hm, hk]
  · simp [List.find?, hg, hm, hk]

theorem tryFromUsize_alignDown (n : ℕ) : PageSize.tryFromUsize (alignDownToPageSize n) = sizeUpTo n := by
  rw [sizeUpTo_eq, alignDownToPageSize]
  split_ifs <;> rfl

theorem alignDownToPageSize_mono : Monotone alignDownToPageSize := by
  have hmg : PageSize.m2.bytes ≤ PageSize.g1.bytes := by decide
  have hkm : PageSize.k4.bytes ≤ PageSize.m2.bytes := by decide
  intro x y h
  unfold alignDownToPageSize
  split_ifs <;> omega

theorem min_sizeUpTo (x y : ℕ) :
    ((sizeUpTo x).bind fun a => (sizeUpTo y).bind fun b => some (min a b)) = sizeUpTo (min x y) := by
  have hmg : PageSize.m2.bytes ≤ PageSize.g1.bytes := by decide
  have hkm : PageSize.k4.bytes ≤ PageSize.m2.bytes := by decide
  simp only [sizeUpTo_eq, ge_iff_le, le_min_iff]
  split_ifs <;> first | rfl | omega

theorem AddrRange.getTakeSize_eq (r : AddrRange) : r.getTakeSize = sizeUpTo (min r.size (alignOf r.addr)) := by
  rw [AddrRange.getTakeSize, ← alignDownToPageSize_mono.map_min, tryFromUsize_alignDown]

/-- `get_take_size` finds the largest frame that is aligned on both sides and fits. -/
theorem getTakeSize_eq (hp : p < usizeMod) (hv : v < usizeMod) :
    Pmit.getTakeSize ⟨⟨p, n⟩, ⟨v, n⟩, f⟩ = largest PageSize.bytes PageSize.all p v n := by
  simp only [Pmit.getTakeSize, AddrRange.getTakeSize_eq, Option.bind_eq_bind, min_sizeUpTo]
  unfold sizeUpTo largest
  congr 1
  funext k
  simp only [Fits, ← bytes_le_alignOf_iff hp, ← bytes_le_alignOf_iff hv, le_min_iff, decide_eq_decide]
  tauto

theorem AddrRange.getTakeSize_empty : AddrRange.getTakeSize ⟨p, 0⟩ = none := by
  rw [AddrRange.getTakeSize_eq, Nat.zero_min]
  rfl

theorem getTakeSize_empty : Pmit.getTakeSize ⟨⟨p, 0⟩, ⟨v, 0⟩, f⟩ = none := by
  rw [Pmit.getTakeSize, AddrRange.getTakeSize_empty]
  rfl

/-- The action for a frame of a zone. -/
def frameAction (f : PageTableFlags) (a : Page PageSize) : PageMappingAction :=
  if f.present then .map ⟨a.size, a.phys⟩ ⟨a.size, a.virt⟩ f else .unmap ⟨a.size, a.virt⟩

variable {zones : List Pmit} {acts : List PageMappingAction}

theorem alignDown_bytes (hp : p < usizeMod) (h : k.bytes ∣ p) : alignDown p k.bytes = p := by
  obtain ⟨j, hj, hlt⟩ := k.bytes_eq_two_pow
  rw [hj] at h ⊢
  rw [alignDown_eq hp hlt.le, Nat.div_mul_cancel h]

theorem take_eq {A : AddrApi} {self : AddrRange} {takeSize : PageSize} {b : ℕ}
    (h : self.getTakeSize = some takeSize) (hle : k ≤ takeSize) (ha : self.addr < usizeMod)
    (hd : k.bytes ∣ self.addr) (hadd : A.add self.addr k.bytes = some b) :
    self.take A k = some (some (⟨b, self.size - k.bytes⟩, ⟨k, self.addr⟩)) := by
  rw [AddrRange.take, h]
  simp only [if_neg (not_lt.2 hle), hadd, Frame.new, alignDown_bytes ha hd, Option.bind_eq_bind,
    Option.bind_some]

/-- One frame of a zone. -/
theorem next_frame {b : ℕ} (hP : P.IsPhys) (hp : p + n < 2 ^ 52) (hv : v < usizeMod)
    (h : largest PageSize.bytes PageSize.all p v n = some k) (hadd : V.add v k.bytes = some b) :
    PageMappingIterator.next P V.toAddrApi (⟨⟨p, n⟩, ⟨v, n⟩, f⟩ :: zones) =
      some (some (frameAction f ⟨k, p, v⟩,
        ⟨⟨p + k.bytes, n - k.bytes⟩, ⟨b, n - k.bytes⟩, f⟩ :: zones)) := by
  have hpw : p < usizeMod := by
    simp only [usizeMod]
    omega
  obtain ⟨hdp, hdv, hle⟩ := (largest_eq_some h).2
  have htake : Pmit.getTakeSize ⟨⟨p, n⟩, ⟨v, n⟩, f⟩ = some k := (getTakeSize_eq hpw hv).trans h
  obtain ⟨kp, hkp, hrest⟩ := Option.bind_eq_some_iff.1 htake
  obtain ⟨kv, hkv, hmin⟩ := Option.bind_eq_some_iff.1 hrest
  obtain rfl := Option.some.inj hmin
  have hphys := take_eq hkp (min_le_left kp kv) hpw hdp (AddrRange.add_of_lt hP (by simp only; omega))
  have hvirt := take_eq hkv (min_le_right kp kv) hv hdv hadd
  simp only [PageMappingIterator.next, Pmit.take, htake, hphys, hvirt, if_neg (lt_irrefl _), gt_iff_lt,
    Option.bind_eq_bind, Option.bind_some, frameAction]

/-- A zone without frames is skipped. -/
theorem yields_skip {z : Pmit} (hz : z.getTakeSize = none)
    (h : PageMappingIterator.Yields P V.toAddrApi zones acts) :
    PageMappingIterator.Yields P V.toAddrApi (z :: zones) acts := by
  have hnext : PageMappingIterator.next P V.toAddrApi (z :: zones) =
      PageMappingIterator.next P V.toAddrApi zones := by
    simp only [PageMappingIterator.next, hz]
  cases h with
  | done hdone => exact .done (hnext.trans hdone)
  | next hact hrest => exact .next (hnext.trans hact) hrest

/-- **The actions of a zone** of whole pages within one half are those for its frames. -/
theorem yields_zone (hP : P.IsPhys) (hV : V.IsVirt) (hdp : PAGE_SIZE ∣ p) (hdv : PAGE_SIZE ∣ v)
    (hdn : PAGE_SIZE ∣ n) (hp : p + n < 2 ^ 52) (hv : InHalf v n)
    (h : PageMappingIterator.Yields P V.toAddrApi zones acts) :
    PageMappingIterator.Yields P V.toAddrApi (⟨⟨p, n⟩, ⟨v, n⟩, f⟩ :: zones)
      ((cut PageSize.bytes PageSize.all p v n).map (frameAction f) ++ acts) := by
  revert hp hv
  refine cut_induction PageSize.units (motive := fun p v n => p + n < 2 ^ 52 → InHalf v n →
    PageMappingIterator.Yields P V.toAddrApi (⟨⟨p, n⟩, ⟨v, n⟩, f⟩ :: zones)
      ((cut PageSize.bytes PageSize.all p v n).map (frameAction f) ++ acts)) ?_ ?_ hdp hdv hdn
  · intro p v _ _
    rw [cut_zero PageSize.units]
    exact yields_skip getTakeSize_empty h
  · intro p v n k hk hfits hlargest ih hp hv
    have hpos := PageSize.units.bytes_pos k hk
    have hle := hfits.2.2
    have hhalf : InHalf v k.bytes ∧ InHalf (v + k.bytes) (n - k.bytes) := by
      unfold InHalf at hv ⊢
      omega
    have hvw : v < usizeMod := by
      unfold InHalf at hv
      simp only [usizeMod]
      omega
    obtain ⟨b, hadd, hb⟩ := add_of_accepted hV hhalf.1.accepted
    rw [cut_of_some PageSize.units hlargest, List.map_cons, List.cons_append]
    refine .next (next_frame hP hp hvw hlargest hadd) ?_
    rcases hle.eq_or_lt with heq | hlt
    · -- nothing is left of the zone, wherever its address is
      rw [← heq, Nat.sub_self, cut_zero PageSize.units]
      exact yields_skip getTakeSize_empty h
    · rw [hb (by unfold InHalf at hv; unfold Canonical; omega)]
      exact ih (by omega) hhalf.2

end Zone
end AuroraOs
