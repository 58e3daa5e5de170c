import AuroraOs.Mem.VirtAllocOps

/-!
# The system call `realloc`

`kernel/src/mem/sys.rs`: a process allocates, frees and resizes regions of type `VirtMem`.  The registers
hold numbers of pages; a size in bytes is computed modulo `2 ^ 64`.

The last theorem says that the call touches regions of type `VirtMem` only, unless an address is
moved or wraps around on the way.
-/

namespace AuroraOs

/-- `SysErr`. -/
inductive SysErr
  | ok
  | okUnreach
  | okTimeout
  | outOfMem
  | invlId
  | invlPerm
  | invlWeak
  | invlArgs
  | invlOp
  | invlMemZone
  | invlVirtAddr
  | invlAlign
  | invlPtr
  | obscured
  | unknown
  deriving DecidableEq

/-- `SysErr::from`. -/
def SysErr.fromMemErr : MemErr → SysErr
  | .outOfMem _ => .outOfMem
  | .invlVirtMem _ => .invlMemZone
  | .invlPtr _ => .invlPtr
  | .invlArgs _ => .invlArgs
  | .invlMemType _ => .invlArgs

/-- What `sysret!` writes: an error code and two values. -/
structure SysRet where
  err : SysErr
  val1 : ℕ
  val2 : ℕ
  deriving DecidableEq

/-- The value of a register. -/
abbrev Usize := Fin usizeMod

/-- An address and a number of pages, or an error. -/
def SysRet.ofRange {ε : Type*} (toErr : ε → SysErr) : Except ε VirtRange → SysRet
  | .ok virtRange => ⟨.ok, virtRange.addr, virtRange.size / PAGE_SIZE⟩
  | .error err => ⟨toErr err, 0, 0⟩

namespace VirtMapper

variable {σ : Type} (E : MemEnv σ) (s : σ) (m : VirtMapper)

/-- `realloc` without an address. -/
def reallocAlloc (size atAddr : ℕ) (flags : PageMappingFlags) : Option (σ × VirtMapper × SysRet) :=
  if size = 0 then some (s, m, ⟨.ok, 0, 0⟩)
  else do
    let (s, elem) ← VirtLayoutElement.new E.toMemApi s size flags
    match elem with
    | none => some (s, m, ⟨.outOfMem, 0, 0⟩)
    | some elem =>
        let layout := VirtLayout.ofVec [elem] .virtMem
        let (s, m, result) ← if atAddr = 0 then m.map E s layout
          else m.mapAt E s layout (.new (E.virt.newTruncate atAddr) layout.size)
        some (s, m, .ofRange (fun _ => .outOfMem) result)

/-- `realloc` to the size zero.  The layout is deallocated, and dropped afterwards. -/
def reallocFree (addr : ℕ) : Option (σ × VirtMapper × SysRet) := do
  match ← m.getMappedRange E.virt (E.virt.newTruncate addr) with
  | none => some (s, m, ⟨.invlPtr, 0, 0⟩)
  | some virtZone =>
      let (s, m, result) ← m.unmap E s virtZone .virtMem
      match result with
      | .ok layout =>
          let s ← layout.dealloc E.toMemApi s
          let s ← layout.dealloc E.toMemApi s
          some (s, m, ⟨.ok, 0, 0⟩)
      | .error _ => some (s, m, ⟨.unknown, 0, 0⟩)

/-- The loop that shrinks a layout.  An element that is not larger than what is left to remove is
removed; otherwise the loop goes on forever. -/
def shrink : ℕ → VirtLayout → ℕ → Option VirtLayout
  | 0, _, _ => none
  | fuel + 1, physZones, diff =>
      match physZones.cleanSlice.getLast? with
      | none => some physZones
      | some a => if diff > a.size then shrink fuel physZones.popDelete (diff - a.size) else none

/-- `realloc_func`. -/
def reallocFunc (size : ℕ) (flags : PageMappingFlags) : AllocFunc σ := fun s physZones => do
  let psize := physZones.size
  let newFlags ← physZones.flags
  let newFlags := if flags.contains .EXACT_SIZE then newFlags ||| .EXACT_SIZE else newFlags
  if size > psize then
    let (s, elem) ← VirtLayoutElement.new E.toMemApi s (size - psize) newFlags
    match elem with
    | none => some (s, physZones, .error (.outOfMem "out of memory"))
    | some elem => some (s, physZones.push elem, .ok ())
  else if size < psize then
    let physZones ← shrink (physZones.data.length + 1) physZones (psize - size)
    some (s, physZones, .ok ())
  else some (s, physZones, .ok ())

/-- `realloc` of a region that is there, to another size. -/
def reallocResize (addr size atAddr atVaddr : ℕ) (flags : PageMappingFlags) :
    Option (σ × VirtMapper × SysRet) := do
  match ← m.getMappedRange E.virt (E.virt.newTruncate addr) with
  | none => some (s, m, ⟨.invlPtr, 0, 0⟩)
  | some virtZone =>
      let (s, m, result) ← if atAddr = 0 then m.remap E s virtZone .virtMem (reallocFunc E size flags)
        else m.remapAt E s virtZone atVaddr .virtMem (reallocFunc E size flags)
      some (s, m, .ofRange (fun _ => .outOfMem) result)

/-- The flags that `realloc` reads from its options. -/
def reallocFlags (options : ℕ) : PageMappingFlags := .fromBitsTruncate options ||| .USER

/-- `realloc`. -/
def realloc (options : BitVec 32) (a1 a2 a3 : Usize) : Option (σ × VirtMapper × SysRet) :=
  let addr := a1.val
  let size := a2.val * PAGE_SIZE % usizeMod
  let atAddr := a3.val
  if alignOf addr < PAGE_SIZE ∨ alignOf atAddr < PAGE_SIZE then some (s, m, ⟨.invlPtr, 0, 0⟩)
  else
    match E.virt.new atAddr with
    | none => some (s, m, ⟨.invlVirtAddr, 0, 0⟩)
    | some atVaddr =>
        let flags := reallocFlags options.toNat
        if addr = 0 then reallocAlloc E s m size atAddr flags
        else if size = 0 then reallocFree E s m addr
        else reallocResize E s m addr size atAddr atVaddr flags

/-! ### What `realloc` changes -/

/-- No address that the call computes with is moved by `VirtAddr::new`, and no range wraps around:
`find_range` takes a gap that begins at a canonical address, and a resized region ends within
64 bits. -/
def ReallocSafe (options : BitVec 32) (a1 a2 a3 : Usize) : Prop :=
  let addr := a1.val
  let size := a2.val * PAGE_SIZE % usizeMod
  let atAddr := a3.val
  let flags := reallocFlags options.toNat
  PAGE_SIZE ≤ alignOf addr → PAGE_SIZE ≤ alignOf atAddr → size ≠ 0 →
    ∀ atVaddr ∈ E.virt.new atAddr,
      if addr = 0 then
        atAddr = 0 → ∀ r ∈ VirtLayoutElement.new E.toMemApi s size flags, ∀ elem ∈ r.2,
          m.GapCanonical (VirtLayout.ofVec [elem] .virtMem).size
      else
        ∀ z ∈ (m.getMappedRange E.virt (E.virt.newTruncate addr)).join,
          if atAddr = 0 then RemapSafe E s m z .virtMem (reallocFunc E size flags)
          else RemapAtSafe E s m z atVaddr .virtMem (reallocFunc E size flags)

variable {E s m} {s' : σ} {m' : VirtMapper} {l l' : VirtLayout} {z : VirtRange} {ret : SysRet}
  {options : BitVec 32} {a1 a2 a3 : Usize}

instance : Decidable (m.ReallocSafe E s options a1 a2 a3) := by
  delta ReallocSafe
  infer_instance

theorem shrink_atype {fuel diff : ℕ} (h : shrink fuel l diff = some l') : l'.atype = l.atype := by
  induction fuel generalizing l diff with
  | zero => simp [shrink] at h
  | succ fuel ih =>
    rw [shrink] at h
    split at h
    · rw [← Option.some.inj h]
    · split_ifs at h
      exact (ih h).trans VirtLayout.popDelete_atype

/-- The closure keeps the type of the layout. -/
theorem reallocFunc_atype {size : ℕ} {flags : PageMappingFlags} {result : Except MemErr Unit}
    (h : reallocFunc E size flags s l = some (s', l', result)) : l'.atype = l.atype := by
  obtain ⟨newFlags, -, h⟩ := Option.bind_eq_some_iff.1 h
  simp only at h
  generalize (if flags.contains .EXACT_SIZE then newFlags ||| .EXACT_SIZE else newFlags) = flags' at h
  split_ifs at h with hgrow hshrink
  · obtain ⟨⟨s₁, _ | elem⟩, -, h⟩ := Option.bind_eq_some_iff.1 h
    · obtain ⟨-, rfl, -⟩ := by simpa using h
      rfl
    · obtain ⟨-, rfl, -⟩ := by simpa using h
      rfl
  · obtain ⟨l₁, hl₁, h⟩ := Option.bind_eq_some_iff.1 h
    obtain ⟨-, rfl, -⟩ := by simpa using h
    exact shrink_atype hl₁
  · obtain ⟨-, rfl, -⟩ := by simpa using h
    rfl

theorem reallocAlloc_touches {size atAddr : ℕ} {flags : PageMappingFlags} (hm : m.WellPlaced)
    (hV : E.virt.IsVirt)
    (hsafe : size ≠ 0 → atAddr = 0 → ∀ r ∈ VirtLayoutElement.new E.toMemApi s size flags,
      ∀ elem ∈ r.2, m.GapCanonical (VirtLayout.ofVec [elem] .virtMem).size)
    (h : m.reallocAlloc E s size atAddr flags = some (s', m', ret)) : m.Touches m' .virtMem := by
  unfold reallocAlloc at h
  by_cases hsize : size = 0
  · rw [if_pos hsize] at h
    obtain ⟨-, rfl, -⟩ := by simpa using h
    exact .refl m _
  rw [if_neg hsize] at h
  obtain ⟨⟨s₁, _ | elem⟩, helem, h⟩ := Option.bind_eq_some_iff.1 h
  · obtain ⟨-, rfl, -⟩ := by simpa using h
    exact .refl m _
  by_cases hat : atAddr = 0
  · simp only [if_pos hat] at h
    obtain ⟨⟨s₂, m₂, result⟩, hmap, h⟩ := Option.bind_eq_some_iff.1 h
    obtain ⟨-, rfl, -⟩ := by simpa using h
    exact (map_spec hm hV (hsafe hsize hat _ helem elem rfl) hmap).touches
  · simp only [if_neg hat] at h
    obtain ⟨⟨s₂, m₂, result⟩, hmap, h⟩ := Option.bind_eq_some_iff.1 h
    obtain ⟨-, rfl, -⟩ := by simpa using h
    exact (mapAt_spec hm hV hmap).touches

theorem reallocFree_touches {addr : ℕ} (h : m.reallocFree E s addr = some (s', m', ret)) :
    m.Touches m' .virtMem := by
  obtain ⟨_ | z, hz, h⟩ := Option.bind_eq_some_iff.1 h
  · obtain ⟨-, rfl, -⟩ := by simpa using h
    exact .refl m _
  obtain ⟨⟨s₁, m₁, result⟩, hunmap, hrest⟩ := Option.bind_eq_some_iff.1 h
  rcases unmap_spec hunmap with ⟨hz, ⟨l, -, rfl⟩, hc⟩ | ⟨-, ⟨err, rfl⟩, rfl⟩
  · simp only [Option.bind_eq_bind, Option.bind_eq_some_iff] at hrest
    obtain ⟨_, -, _, -, hrest⟩ := hrest
    obtain ⟨-, rfl, -⟩ := by simpa using hrest
    refine ⟨some z, none, hc, fun k hk => ?_, by simp⟩
    rwa [← Option.some.inj hk]
  · obtain ⟨-, rfl, -⟩ := by simpa using hrest
    exact .refl m₁ _

theorem reallocResize_touches {addr size atAddr atVaddr : ℕ} {flags : PageMappingFlags}
    (hm : m.WellPlaced) (hV : E.virt.IsVirt)
    (hsafe : ∀ z ∈ (m.getMappedRange E.virt (E.virt.newTruncate addr)).join,
      if atAddr = 0 then RemapSafe E s m z .virtMem (reallocFunc E size flags)
      else RemapAtSafe E s m z atVaddr .virtMem (reallocFunc E size flags))
    (h : m.reallocResize E s addr size atAddr atVaddr flags = some (s', m', ret)) :
    m.Touches m' .virtMem := by
  obtain ⟨_ | z, hz, h⟩ := Option.bind_eq_some_iff.1 h
  · obtain ⟨-, rfl, -⟩ := by simpa using h
    exact .refl m _
  have hsafe := hsafe z (by rw [hz]; rfl)
  by_cases h0 : atAddr = 0
  · simp only [if_pos h0] at h hsafe
    obtain ⟨⟨s₁, m₁, result⟩, hremap, h⟩ := Option.bind_eq_some_iff.1 h
    obtain ⟨-, rfl, -⟩ := by simpa using h
    exact remap_spec hm hV reallocFunc_atype hsafe hremap
  · simp only [if_neg h0] at h hsafe
    obtain ⟨⟨s₁, m₁, result⟩, hremap, h⟩ := Option.bind_eq_some_iff.1 h
    obtain ⟨-, rfl, -⟩ := by simpa using h
    exact remapAt_spec hm hV reallocFunc_atype hsafe hremap

/-- **`realloc` touches regions of type `VirtMem` only**, and keeps the regions well placed. -/
theorem realloc_spec (hm : m.WellPlaced) (hV : E.virt.IsVirt)
    (hsafe : m.ReallocSafe E s options a1 a2 a3)
    (h : m.realloc E s options a1 a2 a3 = some (s', m', ret)) : m.Touches m' .virtMem := by
  unfold realloc at h
  simp only at h
  by_cases halign : alignOf a1.val < PAGE_SIZE ∨ alignOf a3.val < PAGE_SIZE
  · rw [if_pos halign] at h
    obtain ⟨-, rfl, -⟩ := by simpa using h
    exact .refl m _
  rw [if_neg halign] at h
  obtain ⟨halign₁, halign₃⟩ := not_or.1 halign
  cases hat : E.virt.new a3.val with
  | none =>
    rw [hat] at h
    obtain ⟨-, rfl, -⟩ := by simpa using h
    exact .refl m _
  | some atVaddr =>
    rw [hat] at h
    simp only at h
    have hsafe := fun hsize => hsafe (Nat.le_of_not_lt halign₁) (Nat.le_of_not_lt halign₃) hsize atVaddr hat
    by_cases haddr : a1.val = 0
    · simp only [haddr, if_true] at h hsafe
      exact reallocAlloc_touches hm hV hsafe h
    · simp only [if_neg haddr] at h hsafe
      by_cases hsize : a2.val * PAGE_SIZE % usizeMod = 0
      · rw [if_pos hsize] at h
        exact reallocFree_touches h
      · rw [if_neg hsize] at h
        exact reallocResize_touches hm hV (hsafe hsize) h

end VirtMapper
end AuroraOs
