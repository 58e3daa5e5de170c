import AuroraOs.Mem.VirtAllocRun

/-!
# Looking up an address

`address_map` takes the last region that begins at or below an address.  `get_mapped_range` asks whether
that region contains the address; `get_alloc_type` does not.
-/

namespace AuroraOs
namespace VirtMapper

/-- `get_alloc_type`. -/
def getAllocType (m : VirtMapper) (addr : ℕ) : Option (Option AllocType) :=
  m.addressMap addr fun _ zone => some (some zone.allocType)

/-- Both look-ups tell about the region of an address: the one that contains it, and its type, or nothing
where no region contains it. -/
structure LooksUp (V : VirtAddrApi) (m : VirtMapper) (a : ℕ) : Prop where
  range : ∃ out, m.getMappedRange V a = some out ∧
    ∀ r, out = some r ↔ r ∈ m.virtMap.keys ∧ r.Has a ∧ ∀ r' ∈ m.virtMap.keys, r'.Has a → r' = r
  type : ∃ out, m.getAllocType a = some out ∧
    ∀ t, out = some t ↔ ∃ e ∈ m.virtMap.entries, e.1.Has a ∧ e.2.allocType = t

variable {σ : Type} {E : MemEnv σ} {V : VirtAddrApi} {m m' : VirtMapper} {a : ℕ} {r : VirtRange}
  {e : VirtRange × VirtLayout} {α : Type} {f : VirtRange → VirtLayout → Option (Option α)}

/-! ### The region that is looked at -/

theorem WellPlaced.lt_key_iff (hm : m.WellPlaced) (hr : r ∈ m.virtMap.keys) :
    r < ⟨a, usizeMod - 1⟩ ↔ r.addr ≤ a := by
  have hhi := (hm.range r hr).hi
  have hmax : MAX_MAP_ADDR < usizeMod - 1 := by decide
  rw [AddrRange.lt_iff, Nat.le_iff_lt_or_eq]
  simp only
  exact or_congr_right (and_iff_left (by omega))

/-- A region that contains the address is the last one that begins at or below it. -/
theorem WellPlaced.le_of_has (hm : m.WellPlaced) (hr : r ∈ m.virtMap.keys) (ha : r.Has a)
    {r' : VirtRange} (hr' : r' ∈ m.virtMap.keys) (hle : r'.addr ≤ a) : r' ≤ r := by
  by_contra hlt
  have := hm.le_of_lt hr hr' (not_le.1 hlt)
  omega

theorem addressMap_none (hm : m.WellPlaced) (hno : ∀ r ∈ m.virtMap.keys, a < r.addr) :
    m.addressMap a f = some none := by
  have hnil : m.virtMap.below ⟨a, usizeMod - 1⟩ = [] := by
    rw [List.eq_nil_iff_forall_not_mem]
    intro e he
    obtain ⟨hmem, hlt⟩ := SortedMap.mem_below.1 he
    have hkey := SortedMap.mem_keys_of_mem hmem
    exact (hno _ hkey).not_ge ((hm.lt_key_iff hkey).1 hlt)
  rw [addressMap, hnil]
  rfl

/-- The closure gets the last region that begins at or below the address. -/
theorem addressMap_last (hm : m.WellPlaced) (hmem : e ∈ m.virtMap.entries) (hle : e.1.addr ≤ a)
    (hlast : ∀ r ∈ m.virtMap.keys, r.addr ≤ a → r ≤ e.1) : m.addressMap a f = f e.1 e.2 := by
  have hkey := SortedMap.mem_keys_of_mem hmem
  have hhead : ((m.virtMap.below ⟨a, usizeMod - 1⟩).map Prod.fst)[0]? = some e.1 := by
    refine SortedMap.head_below_iff.2 ⟨⟨hkey, (hm.lt_key_iff hkey).2 hle⟩, fun r hr => ?_⟩
    exact hlast r hr.1 ((hm.lt_key_iff hr.1).1 hr.2)
  rw [List.getElem?_map] at hhead
  obtain ⟨e', he', hfst⟩ := Option.map_eq_some_iff.1 hhead
  have hmem' := (SortedMap.mem_below.1 (List.mem_of_getElem? he')).1
  obtain rfl := SortedMap.entry_unique hmem' hmem hfst
  rw [addressMap, List.head?_eq_getElem?, he']

/-- There is no region that begins at or below the address, or a last one. -/
theorem WellPlaced.last_cases (hm : m.WellPlaced) (a : ℕ) : (∀ r ∈ m.virtMap.keys, a < r.addr) ∨
    ∃ e ∈ m.virtMap.entries, e.1.addr ≤ a ∧ ∀ r ∈ m.virtMap.keys, r.addr ≤ a → r ≤ e.1 := by
  cases hhead : ((m.virtMap.below ⟨a, usizeMod - 1⟩).map Prod.fst)[0]? with
  | none =>
    have hnone := SortedMap.head_below_eq_none.1 hhead
    exact Or.inl fun r hr => not_le.1 fun hle => (hnone r hr).not_gt ((hm.lt_key_iff hr).2 hle)
  | some r =>
    obtain ⟨⟨hr, hlt⟩, hgreatest⟩ := SortedMap.head_below_iff.1 hhead
    obtain ⟨l, hmem⟩ := SortedMap.mem_keys.1 hr
    refine Or.inr ⟨(r, l), hmem, (hm.lt_key_iff hr).1 hlt, fun r' hr' hle => ?_⟩
    exact hgreatest ⟨hr', (hm.lt_key_iff hr').2 hle⟩

/-! ### Both look-ups -/

/-- A region contains an address that it has, if its end is an address. -/
theorem contains_of_has (hV : V.IsVirt) (hu : UserRange r) (ha : r.Has a) :
    r.contains V.toAddrApi a = (r.endAddr V.toAddrApi).map fun _ => true := by
  obtain ⟨hle, hlt⟩ := ha
  rw [AddrRange.contains, if_pos hle, AddrRange.endAddr]
  cases hend : V.add r.addr r.size with
  | none => rfl
  | some b =>
    have hb := hV.le_add hu.lt_usizeMod hend
    simp only [Option.bind_eq_bind, Option.bind_some, Option.map_some, Option.some.injEq,
      decide_eq_true_eq]
    omega

/-- Below the first region there is none. -/
theorem LooksUp.of_first (hm : m.WellPlaced) (hno : ∀ r ∈ m.virtMap.keys, a < r.addr) : m.LooksUp V a where
  range := by
    refine ⟨none, addressMap_none hm hno, fun r => iff_of_false (by simp) ?_⟩
    rintro ⟨hr, ha, -⟩
    exact (hno r hr).not_ge ha.1
  type := by
    refine ⟨none, addressMap_none hm hno, fun t => iff_of_false (by simp) ?_⟩
    rintro ⟨e, he, ha, -⟩
    exact (hno e.1 (SortedMap.mem_keys_of_mem he)).not_ge ha.1

/-- In a region whose end is an address, both look-ups find it. -/
theorem LooksUp.of_has (hm : m.WellPlaced) (hV : V.IsVirt) (he : e ∈ m.virtMap.entries) (ha : e.1.Has a)
    (hend : (e.1.endAddr V.toAddrApi).isSome) : m.LooksUp V a := by
  have hkey := SortedMap.mem_keys_of_mem he
  have hlast : ∀ r ∈ m.virtMap.keys, r.addr ≤ a → r ≤ e.1 := fun r hr hle => hm.le_of_has hkey ha hr hle
  have hunique : ∀ r ∈ m.virtMap.keys, r.Has a → r = e.1 := by
    intro r hr hr'
    exact le_antisymm (hlast r hr hr'.1) (hm.le_of_has hr hr' hkey ha.1)
  obtain ⟨b, hb⟩ := Option.isSome_iff_exists.1 hend
  constructor
  · refine ⟨some e.1, ?_, fun r => ?_⟩
    · rw [getMappedRange, addressMap_last hm he ha.1 hlast, contains_of_has hV (hm.range _ hkey) ha, hb]
      rfl
    · rw [Option.some.injEq]
      constructor
      · rintro rfl
        exact ⟨hkey, ha, hunique⟩
      · rintro ⟨hr, hr', -⟩
        exact (hunique r hr hr').symm
  · refine ⟨some e.2.allocType, addressMap_last hm he ha.1 hlast, fun t => ?_⟩
    rw [Option.some.injEq]
    constructor
    · rintro rfl
      exact ⟨e, he, ha, rfl⟩
    · rintro ⟨e', he', ha', rfl⟩
      rw [SortedMap.entry_unique he' he (hunique _ (SortedMap.mem_keys_of_mem he') ha')]

/-- Behind a region `get_alloc_type` still gives its type. -/
theorem LooksUp.has (hm : m.WellPlaced) (h : m.LooksUp V a) (he : e ∈ m.virtMap.entries)
    (hle : e.1.addr ≤ a) (hlast : ∀ r ∈ m.virtMap.keys, r.addr ≤ a → r ≤ e.1) : e.1.Has a := by
  obtain ⟨out, hout, htype⟩ := h.type
  have hlooked : m.getAllocType a = some (some e.2.allocType) := addressMap_last hm he hle hlast
  obtain rfl := Option.some.inj (hlooked.symm.trans hout)
  obtain ⟨e', he', ha, -⟩ := (htype _).1 rfl
  have hkey' := SortedMap.mem_keys_of_mem he'
  have hsame : e'.1 = e.1 :=
    le_antisymm (hlast _ hkey' ha.1) (hm.le_of_has hkey' ha (SortedMap.mem_keys_of_mem he) hle)
  rwa [← hsame]

/-- Where the end of the region is no address, `contains` panics. -/
theorem LooksUp.endAddr (hm : m.WellPlaced) (hV : V.IsVirt) (h : m.LooksUp V a)
    (he : e ∈ m.virtMap.entries) (ha : e.1.Has a) : (e.1.endAddr V.toAddrApi).isSome := by
  have hkey := SortedMap.mem_keys_of_mem he
  obtain ⟨out, hout, -⟩ := h.range
  rw [getMappedRange, addressMap_last hm he ha.1 fun r hr hle => hm.le_of_has hkey ha hr hle,
    contains_of_has hV (hm.range _ hkey) ha] at hout
  by_contra hnone
  rw [Option.not_isSome_iff_eq_none.1 hnone] at hout
  cases hout

theorem WellPlaced.looksUp_iff (hm : m.WellPlaced) (hV : V.IsVirt) (a : ℕ) : m.LooksUp V a ↔
    (∀ r ∈ m.virtMap.keys, a < r.addr) ∨
      ∃ r ∈ m.virtMap.keys, r.Has a ∧ (r.endAddr V.toAddrApi).isSome := by
  constructor
  · intro h
    refine (hm.last_cases a).imp_right ?_
    rintro ⟨e, he, hle, hlast⟩
    have ha := h.has hm he hle hlast
    exact ⟨e.1, SortedMap.mem_keys_of_mem he, ha, h.endAddr hm hV he ha⟩
  · rintro (hno | ⟨r, hr, ha, hend⟩)
    · exact .of_first hm hno
    · obtain ⟨l, he⟩ := SortedMap.mem_keys.1 hr
      exact .of_has hm hV he ha hend

/-! ### Runs -/

/-- The gap that is taken begins at a canonical address, and no range wraps around. -/
def Places (E : MemEnv σ) (m : VirtMapper) : σ × Call σ → Prop
  | (_, .map physZones) => m.GapCanonical physZones.size
  | (_, .mapAt _ _) => True
  | (s, .remap virtZone atype f) => RemapSafe E s m virtZone atype f
  | (s, .remapAt virtZone target atype f) => RemapAtSafe E s m virtZone target atype f
  | (_, .unmap _ _) => True

instance : (c : σ × Call σ) → Decidable (Places E m c)
  | (_, .map physZones) => inferInstanceAs (Decidable (m.GapCanonical physZones.size))
  | (_, .mapAt _ _) => isTrue trivial
  | (s, .remap virtZone atype f) => inferInstanceAs (Decidable (RemapSafe E s m virtZone atype f))
  | (s, .remapAt virtZone target atype f) =>
      inferInstanceAs (Decidable (RemapAtSafe E s m virtZone target atype f))
  | (_, .unmap _ _) => isTrue trivial

theorem wellPlaced_step (hV : E.virt.IsVirt) (m : VirtMapper) (c : σ × Call σ) (m' : VirtMapper)
    (hm : m.WellPlaced) (hplaces : Places E m c) (h : step E m c = some m') : m'.WellPlaced := by
  obtain ⟨s, c⟩ := c
  cases c with
  | map l =>
    obtain ⟨⟨s', m₁, res⟩, hcall, rfl⟩ := Option.map_eq_some_iff.1 h
    exact (map_spec hm hV hplaces hcall).touches.wellPlaced hm
  | mapAt l r =>
    obtain ⟨⟨s', m₁, res⟩, hcall, rfl⟩ := Option.map_eq_some_iff.1 h
    exact (mapAt_spec hm hV hcall).touches.wellPlaced hm
  | remap r atype f =>
    obtain ⟨⟨s', m₁, res⟩, hcall, rfl⟩ := Option.map_eq_some_iff.1 h
    obtain ⟨z, -, gone, come, hchange, -, -⟩ := remap_change hm hV hplaces hcall
    exact hchange.wellPlaced hm
  | remapAt r target atype f =>
    obtain ⟨⟨s', m₁, res⟩, hcall, rfl⟩ := Option.map_eq_some_iff.1 h
    obtain ⟨z, -, gone, come, hchange, -, -⟩ := remapAt_change hm hV hplaces hcall
    exact hchange.wellPlaced hm
  | unmap r atype =>
    obtain ⟨⟨s', m₁, res⟩, hcall, rfl⟩ := Option.map_eq_some_iff.1 h
    rcases unmap_spec hcall with ⟨-, -, hchange⟩ | ⟨-, -, rfl⟩
    · exact hchange.wellPlaced hm
    · exact hm

end VirtMapper
end AuroraOs
