import Mathlib

/-!
# Binary search by a comparison

The search of a standard library's `binary_search_by`: the window from `left` to `right` is halved, and
the answer is the index of an element that compares equal, or the index where one would be inserted.
The comparison of an element may fail, and the search fails with it.
-/

namespace BinarySearch

variable {α κ : Type*}

/-- The loop on the window from `left` to `right`, for at most `fuel` turns. -/
def loop (cmp : α → Option Ordering) (xs : List α) : ℕ → ℕ → ℕ → Option (Except ℕ ℕ)
  | 0, left, _ => some (.error left)
  | fuel + 1, left, right =>
    if left < right then
      let mid := left + (right - left) / 2
      match (xs[mid]?).bind cmp with
      | none => none
      | some .lt => loop cmp xs fuel (mid + 1) right
      | some .gt => loop cmp xs fuel left mid
      | some .eq => some (.ok mid)
    else some (.error left)

/-- The search: a window never has more turns than elements. -/
def search (cmp : α → Option Ordering) (xs : List α) : Option (Except ℕ ℕ) :=
  loop cmp xs xs.length 0 xs.length

/-- What the answer says of the keys of the elements: the key is at the index, or it belongs between
the keys before the index and those from it on. -/
def Answers [LinearOrder κ] (keys : List κ) (k : κ) : Except ℕ ℕ → Prop
  | .ok i => keys[i]? = some k
  | .error i => i ≤ keys.length ∧ (∀ j x, j < i → keys[j]? = some x → x < k) ∧
      ∀ j x, i ≤ j → keys[j]? = some x → k < x

variable [LinearOrder κ] {cmp : α → Option Ordering} {xs : List α} {keys : List κ} {k : κ}

theorem cmp_getElem? (hcmp : xs.map cmp = keys.map fun x => some (compare x k)) {i : ℕ}
    (hi : i < keys.length) : (xs[i]?).bind cmp = some (compare keys[i] k) := by
  have hget := congrArg (·[i]?) hcmp
  simp only [List.getElem?_map, List.getElem?_eq_getElem hi, Option.map_some] at hget
  obtain ⟨x, hx, hxk⟩ := Option.map_eq_some_iff.1 hget
  rw [hx, Option.bind_some, hxk]

theorem loop_spec (hcmp : xs.map cmp = keys.map fun x => some (compare x k))
    (hsorted : keys.Pairwise (· < ·)) {fuel left right : ℕ} (hfuel : right - left ≤ fuel)
    (hle : left ≤ right) (hright : right ≤ keys.length)
    (hbelow : ∀ j x, j < left → keys[j]? = some x → x < k)
    (habove : ∀ j x, right ≤ j → keys[j]? = some x → k < x) :
    ∃ r, loop cmp xs fuel left right = some r ∧ Answers keys k r := by
  induction fuel generalizing left right with
  | zero =>
    obtain rfl : left = right := by omega
    exact ⟨.error left, rfl, hright, hbelow, habove⟩
  | succ fuel ih =>
    rw [loop]
    split_ifs with hlt
    · -- the middle is in the window
      have hmid : left + (right - left) / 2 < keys.length := by omega
      generalize hm : left + (right - left) / 2 = mid at hmid
      simp only [cmp_getElem? hcmp hmid]
      have hget : keys[mid]? = some keys[mid] := List.getElem?_eq_getElem hmid
      have horder : ∀ (i j : ℕ) (x y : κ), i < j → keys[i]? = some x → keys[j]? = some y → x < y := by
        intro i j x y hij hx hy
        obtain ⟨hi, rfl⟩ := List.getElem?_eq_some_iff.1 hx
        obtain ⟨hj, rfl⟩ := List.getElem?_eq_some_iff.1 hy
        exact List.pairwise_iff_getElem.1 hsorted i j hi hj hij
      cases hc : compare keys[mid] k with
      | lt =>
        have hlow : keys[mid] < k := compare_lt_iff_lt.1 hc
        refine ih (by omega) (by omega) hright (fun j x hj hx => ?_) habove
        rcases Nat.lt_succ_iff_lt_or_eq.1 hj with hj | rfl
        · exact (horder j mid x _ hj hx hget).trans hlow
        · rw [hget] at hx
          exact Option.some.inj hx ▸ hlow
      | eq => exact ⟨.ok mid, rfl, hget.trans (congrArg some (compare_eq_iff_eq.1 hc))⟩
      | gt =>
        have hhigh : k < keys[mid] := compare_gt_iff_gt.1 hc
        refine ih (by omega) (by omega) hmid.le hbelow fun j x hj hx => ?_
        rcases Nat.eq_or_lt_of_le hj with rfl | hj
        · rw [hget] at hx
          exact Option.some.inj hx ▸ hhigh
        · exact hhigh.trans (horder mid j _ x hj hget hx)
    · obtain rfl : left = right := by omega
      exact ⟨.error left, rfl, hright, hbelow, habove⟩

/-- **The search answers rightly where the elements compare as the keys of a sorted list do.** -/
theorem search_spec (hcmp : xs.map cmp = keys.map fun x => some (compare x k))
    (hsorted : keys.Pairwise (· < ·)) : ∃ r, search cmp xs = some r ∧ Answers keys k r := by
  have hlen : xs.length = keys.length := by simpa using congrArg List.length hcmp
  refine loop_spec hcmp hsorted (by omega) (Nat.zero_le _) hlen.le (fun j x hj => ?_) fun j x hj hx => ?_
  · exact absurd hj (Nat.not_lt_zero j)
  · obtain ⟨hj', -⟩ := List.getElem?_eq_some_iff.1 hx
    omega

/-- Where a key would be inserted, it is not. -/
theorem Answers.not_mem {i : ℕ} (h : Answers keys k (.error i)) : k ∉ keys := by
  intro hk
  obtain ⟨j, hj⟩ := List.mem_iff_getElem?.1 hk
  rcases Nat.lt_or_ge j i with hji | hij
  · exact lt_irrefl k (h.2.1 j k hji hj)
  · exact lt_irrefl k (h.2.2 j k hij hj)

end BinarySearch
