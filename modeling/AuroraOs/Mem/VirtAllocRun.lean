import AuroraOs.Mem.VirtAllocOps
import AuroraOs.Lib.Machine
import AuroraOs.Boot.Mb2Run

/-!
# Runs of an address space

`map`, `map_at`, `remap`, `remap_at` and `unmap` in any order, from the address space that
`VirtMapper::new` makes; the rest of the kernel may be in any state at each call.  The regions never
overlap.  A region has the size of its layout, unless a call that fails leaves a layout of another
size: what a closure has done before it fails stays, and `revert` goes back to the part of the layout
that counts as mapped.
-/

namespace AuroraOs
namespace VirtMapper

variable {σ : Type} {E : MemEnv σ} {s : σ} {m m' : VirtMapper} {l l₁ : VirtLayout} {r z : VirtRange}
  {atype : AllocType} {f : AllocFunc σ} {target : ℕ} {moves : Prop}

/-- A call on an address space. -/
inductive Call (σ : Type)
  | map (physZones : VirtLayout)
  | mapAt (physZones : VirtLayout) (virtZone : VirtRange)
  | remap (virtZone : VirtRange) (atype : AllocType) (allocFunc : AllocFunc σ)
  | remapAt (virtZone : VirtRange) (targetAddr : ℕ) (atype : AllocType) (allocFunc : AllocFunc σ)
  | unmap (virtZone : VirtRange) (atype : AllocType)

/-- A call, in a state of the rest of the kernel. -/
def step (E : MemEnv σ) (m : VirtMapper) : σ × Call σ → Option VirtMapper
  | (s, .map physZones) => (m.map E s physZones).map fun r => r.2.1
  | (s, .mapAt physZones virtZone) => (m.mapAt E s physZones virtZone).map fun r => r.2.1
  | (s, .remap virtZone atype f) => (m.remap E s virtZone atype f).map fun r => r.2.1
  | (s, .remapAt virtZone target atype f) =>
      (m.remapAt E s virtZone target atype f).map fun r => r.2.1
  | (s, .unmap virtZone atype) => (m.unmap E s virtZone atype).map fun r => r.2.1

/-- The regions do not overlap, and each has the size of its layout. -/
structure Regular (m : VirtMapper) : Prop where
  placed : m.WellPlaced
  size_eq : ∀ e ∈ m.virtMap.entries, e.1.size = e.2.size

theorem regular_new : VirtMapper.new.Regular :=
  ⟨wellPlaced_new, by simp [VirtMapper.new, SortedMap.empty]⟩

/-! ### What the calls are made with -/

/-- The layout that a closure makes consists of whole pages. -/
def ResizesPages (V : VirtAddrApi) (s : σ) (m : VirtMapper) (virtZone : VirtRange) (atype : AllocType)
    (f : AllocFunc σ) : Prop :=
  ∀ z ∈ virtZone.aligned V.toAddrApi, ∀ l ∈ resized s m z atype f, PAGE_SIZE ∣ l.size

/-- Layouts are whole pages, the gap that is taken begins at a canonical address, and no range wraps
around. -/
def Plain (E : MemEnv σ) (m : VirtMapper) : σ × Call σ → Prop
  | (_, .map physZones) => PAGE_SIZE ∣ physZones.size ∧ m.GapCanonical physZones.size
  | (_, .mapAt physZones _) => PAGE_SIZE ∣ physZones.size
  | (s, .remap virtZone atype f) =>
      RemapSafe E s m virtZone atype f ∧ ResizesPages E.virt s m virtZone atype f
  | (s, .remapAt virtZone target atype f) =>
      RemapAtSafe E s m virtZone target atype f ∧ ResizesPages E.virt s m virtZone atype f
  | (_, .unmap _ _) => True

instance : Decidable (ResizesPages E.virt s m r atype f) := by
  delta ResizesPages
  infer_instance

instance : (c : σ × Call σ) → Decidable (Plain E m c)
  | (_, .map physZones) =>
      inferInstanceAs (Decidable (PAGE_SIZE ∣ physZones.size ∧ m.GapCanonical physZones.size))
  | (_, .mapAt physZones _) => inferInstanceAs (Decidable (PAGE_SIZE ∣ physZones.size))
  | (s, .remap virtZone atype f) => inferInstanceAs (Decidable
      (RemapSafe E s m virtZone atype f ∧ ResizesPages E.virt s m virtZone atype f))
  | (s, .remapAt virtZone target atype f) => inferInstanceAs (Decidable
      (RemapAtSafe E s m virtZone target atype f ∧ ResizesPages E.virt s m virtZone atype f))
  | (_, .unmap _ _) => isTrue trivial

/-- From the layout `l` the closure made `l₁`.  If it failed, the size is the same; if there is no
space for `l₁`, then the part of it that is mapped has the size of `l`. -/
def SizeKept (V : VirtAddrApi) (m : VirtMapper) (z : VirtRange) (target : ℕ) (moves : Prop)
    (l l₁ : VirtLayout) : Except MemErr Unit → Prop
  | .error _ => l₁.size = l.size
  | .ok () => m.freeSpace V (.new target l₁.size) (some z) = some none →
      (moves → m.findRange V l₁.size = some none) →
        VirtLayout.sizeOf (l₁.cleanSlice ++ l₁.deallocQue.reverse) = l.size

/-- The size is kept by a call that resizes a region and fails. -/
def RemapKeeps (E : MemEnv σ) (s : σ) (m : VirtMapper) (z : VirtRange) (target : ℕ)
    (atype : AllocType) (f : AllocFunc σ) (moves : Prop) : Prop :=
  ∀ l ∈ m.virtMap.get? z, l.atype = atype →
    ∀ out ∈ f s l, SizeKept E.virt m z target moves l out.2.1 out.2.2

/-- The same of all calls. -/
def Keeps (E : MemEnv σ) (m : VirtMapper) : σ × Call σ → Prop
  | (s, .remap virtZone atype f) =>
      ∀ z ∈ virtZone.aligned E.virt.toAddrApi, RemapKeeps E s m z z.addr atype f True
  | (s, .remapAt virtZone target atype f) => ∀ z ∈ virtZone.aligned E.virt.toAddrApi,
      RemapKeeps E s m z (alignDown target PAGE_SIZE) atype f False
  | _ => True

instance {V : VirtAddrApi} [Decidable moves] :
    (result : Except MemErr Unit) → Decidable (SizeKept V m z target moves l l₁ result)
  | .error _ => inferInstanceAs (Decidable (_ = _))
  | .ok () => inferInstanceAs (Decidable (_ = _ → (_ → _ = _) → _ = _))

instance [Decidable moves] : Decidable (RemapKeeps E s m z target atype f moves) := by
  delta RemapKeeps
  infer_instance

instance : (c : σ × Call σ) → Decidable (Keeps E m c)
  | (s, .remap virtZone atype f) => inferInstanceAs (Decidable
      (∀ z ∈ virtZone.aligned E.virt.toAddrApi, RemapKeeps E s m z z.addr atype f True))
  | (s, .remapAt virtZone target atype f) => inferInstanceAs (Decidable
      (∀ z ∈ virtZone.aligned E.virt.toAddrApi,
        RemapKeeps E s m z (alignDown target PAGE_SIZE) atype f False))
  | (_, .map _) => isTrue trivial
  | (_, .mapAt _ _) => isTrue trivial
  | (_, .unmap _ _) => isTrue trivial

/-! ### One call -/

theorem alignUp_size (h : PAGE_SIZE ∣ l.size) : alignUp l.size PAGE_SIZE = l.size :=
  @alignUp_of_page _ 0 h (by rw [zero_add]; exact l.size_lt)

theorem Regular.change {gone : Option VirtRange} {come : Option (VirtRange × VirtLayout)}
    (h : m.Regular) (hc : Change m m' gone come) (hcome : ∀ e ∈ come, e.1.size = e.2.size) :
    m'.Regular := by
  refine ⟨hc.wellPlaced h.placed, fun e he => ?_⟩
  rcases (hc.mem_iff e).1 he with he | ⟨he, -⟩
  · exact hcome e he
  · exact h.size_eq e he

theorem Regular.added {res : Except MemErr VirtRange} (h : m.Regular) (hadd : m.Added m' l res)
    (hpage : PAGE_SIZE ∣ l.size) : m'.Regular := by
  cases res with
  | ok r =>
    obtain ⟨hr, l', hl', hc⟩ := hadd
    refine h.change hc fun e he => ?_
    rw [← Option.some.inj he, hr, alignUp_size hpage, hl'.size]
  | error err =>
    obtain rfl : m' = m := hadd
    exact h

/-- What `remap` and `remap_at` leave has the size of its region. -/
theorem Outcome.size_eq {e : VirtRange × VirtLayout} (ho : Outcome E s m z target atype f moves e)
    (h : m.Regular) (hpage : ∀ l ∈ resized s m z atype f, PAGE_SIZE ∣ l.size)
    (hkeep : RemapKeeps E s m z target atype f moves) : e.1.size = e.2.size := by
  cases ho with
  | failed hl hty hf =>
    have hkept := hkeep _ (SortedMap.get?_eq_some.2 hl) hty _ hf
    exact (h.size_eq _ hl).trans (Eq.symm hkept)
  | @placed r l l₁ l₂ s₁ hl hty hf hr hl₂ =>
    have hmem : l₁ ∈ resized s m z atype f := by
      simp [resized, SortedMap.get?_eq_some.2 hl, VirtLayout.allocType, hty, hf]
    simp only
    rw [hr, alignUp_size (hpage l₁ hmem), hl₂.size]
  | @reverted l l₁ l₂ s₁ s' hl hty hf hfs hr hrev =>
    have hkept := hkeep _ (SortedMap.get?_eq_some.2 hl) hty _ hf hfs hr
    calc z.size = l.size := h.size_eq _ hl
      _ = VirtLayout.sizeOf (l₁.cleanSlice ++ l₁.deallocQue.reverse) := Eq.symm hkept
      _ = l₂.size := by rw [← (VirtLayout.revert_spec hrev).1, VirtLayout.size]

/-- **One call.** -/
theorem regular_step (m : VirtMapper) (c : σ × Call σ) (m' : VirtMapper) (hV : E.virt.IsVirt)
    (h : m.Regular) (hplain : Plain E m c) (hkeep : Keeps E m c) (he : step E m c = some m') :
    m'.Regular := by
  obtain ⟨s, c⟩ := c
  cases c with
  | map l =>
    obtain ⟨⟨s', m₁, res⟩, hcall, rfl⟩ := Option.map_eq_some_iff.1 he
    exact h.added (map_spec h.placed hV hplain.2 hcall) hplain.1
  | mapAt l r =>
    obtain ⟨⟨s', m₁, res⟩, hcall, rfl⟩ := Option.map_eq_some_iff.1 he
    exact h.added (mapAt_spec h.placed hV hcall) hplain
  | remap r atype f =>
    obtain ⟨⟨s', m₁, res⟩, hcall, rfl⟩ := Option.map_eq_some_iff.1 he
    obtain ⟨z, hz, gone, come, hc, -, hcome⟩ := remap_change h.placed hV hplain.1 hcall
    exact h.change hc fun e hmem => (hcome e hmem).size_eq h (hplain.2 z hz) (hkeep z hz)
  | remapAt r target atype f =>
    obtain ⟨⟨s', m₁, res⟩, hcall, rfl⟩ := Option.map_eq_some_iff.1 he
    obtain ⟨z, hz, gone, come, hc, -, hcome⟩ := remapAt_change h.placed hV hplain.1 hcall
    exact h.change hc fun e hmem => (hcome e hmem).size_eq h (hplain.2 z hz) (hkeep z hz)
  | unmap r atype =>
    obtain ⟨⟨s', m₁, res⟩, hcall, rfl⟩ := Option.map_eq_some_iff.1 he
    rcases unmap_spec hcall with ⟨-, -, hc⟩ | ⟨-, -, rfl⟩
    · exact h.change hc (by simp)
    · exact h

/-! ### Every run -/

/-- A zone manager with no memory, and page tables that are never written. -/
def idle : MemEnv Unit where
  alloc _ _ := some ((), none)
  dealloc _ _ := some ()
  mapInternal _ zones := if zones = [] then some () else none
  phys := MemoryRegionType.physAddr
  virt := virtAddr

/-- A page that is reserved. -/
def reservedPage : VirtLayoutElement := ⟨.empty PAGE_SIZE, PAGE_SIZE, .NONE, 0⟩

/-- Two pages, and the page after them. -/
def twoRegions (s : σ) : List (σ × Call σ) :=
  [(s, .map (.ofVec [reservedPage, reservedPage] .virtMem)),
    (s, .map (.ofVec [reservedPage] .virtMem))]

/-- The closure that adds a page. -/
def pushPage : AllocFunc Unit := fun s l => some (s, l.push reservedPage, .ok ())

/-- The closure that removes the last page. -/
def popPage : AllocFunc Unit := fun s l => some (s, l.popDelete, .ok ())

/-- The first region grows and moves, and the second one ends. -/
def growFirst : List (Unit × Call Unit) :=
  twoRegions () ++ [((), .remap ⟨0x1000, 0x2000⟩ .virtMem pushPage), ((), .unmap ⟨0x3000, 0x1000⟩ .virtMem)]

/-- Twice, the first region is to lose a page and move to where the second one is. -/
def shrinkTwice : List (Unit × Call Unit) :=
  twoRegions () ++ [((), .remapAt ⟨0x1000, 0x2000⟩ 0x3000 .virtMem popPage),
    ((), .remapAt ⟨0x1000, 0x2000⟩ 0x3000 .virtMem popPage)]

end VirtMapper
end AuroraOs
