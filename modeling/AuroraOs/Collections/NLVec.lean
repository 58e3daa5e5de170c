import AuroraOs.Util
import AuroraOs.Lib.Machine

/-!
# The non locking vec: `NLVec`

An `NLVec` is an atomic pointer to a vector on the heap.  `write` loads the pointer, clones the
vector, changes the clone, moves it to the heap and exchanges the pointer if it still is the one it
loaded; it frees the old vector then, and otherwise its own before it tries again.

`step` is one atomic step of one thread: the heap hands out any address that is not in use, so that of
a vector freed before too, and the clone of a vector freed meanwhile is any list.  `none` is a step
that the thread is not at, or the panic of a closure.  `F` is a type of closures with their meaning
`exec`; `Op` has those of `insert`, `push`, `remove` and `pop`.
-/

namespace AuroraOs.NLVec

/-- The calls that change an `NLVec`; elements are pointers. -/
inductive Op (α : Type)
  | insert (index : ℕ) (ptr : α)
  | push (ptr : α)
  | remove (index : ℕ)
  | pop
  deriving DecidableEq

/-- What the closure of a call does to the clone, and what it returns. -/
def Op.exec {α : Type} : Op α → List α → Option (Option α × List α)
  | .insert index ptr, vec =>
      if index ≤ vec.length then some (none, vec.insertIdx index ptr) else none
  | .push ptr, vec => some (none, vec ++ [ptr])
  | .remove index, vec => vec[index]?.map fun ptr => (some ptr, vec.eraseIdx index)
  | .pop, vec => some (vec.getLast?, vec.dropLast)

variable {T F α β : Type}

/-- Where a thread is in `write`, with its local variables. -/
inductive Pc (F α β : Type)
  | idle
  | load (f : F)
  | clone (f : F) (ptr : Ptr)
  | toHeap (f : F) (ptr : Ptr) (vec : List α)
  | exchange (f : F) (ptr : Ptr) (vec : List α) (out : β) (newPtr : Ptr)
  | dropOld (f : F) (out : β) (oldPtr : Ptr)
  | dropNew (f : F) (newPtr : Ptr)

/-- The pointer, the vectors on the heap and the threads; `updates` are the calls whose exchange
succeeded and `returned` those that have returned, in order. -/
structure World (T F α β : Type) where
  ptr : Ptr
  heap : Ptr → Option (List α)
  pc : T → Pc F α β
  updates : List F
  returned : List F

/-- An atomic step of a thread. -/
inductive Act (T F α : Type)
  | call (t : T) (f : F)
  | load (t : T)
  | clone (t : T) (garbage : List α)
  | toHeap (t : T) (addr : Ptr)
  | exchange (t : T)
  | free (t : T)

variable [DecidableEq T] (exec : F → List α → Option (β × List α))

def World.goto (w : World T F α β) (t : T) (pc : Pc F α β) : World T F α β :=
  { w with pc := Function.update w.pc t pc }

/-- One atomic step. -/
def step (w : World T F α β) : Act T F α → Option (World T F α β)
  | .call t f =>
      match w.pc t with
      | .idle => some (w.goto t (.load f))
      | _ => none
  | .load t =>
      match w.pc t with
      | .load f => some (w.goto t (.clone f w.ptr))
      | _ => none
  | .clone t garbage =>
      match w.pc t with
      | .clone f ptr => some (w.goto t (.toHeap f ptr ((w.heap ptr).getD garbage)))
      | _ => none
  | .toHeap t addr =>
      match w.pc t with
      | .toHeap f ptr vec =>
          match exec f vec with
          | some (out, vec') =>
              if w.heap addr = none then
                some { w.goto t (.exchange f ptr vec out addr) with
                  heap := Function.update w.heap addr (some vec') }
              else none
          | none => none
      | _ => none
  | .exchange t =>
      match w.pc t with
      | .exchange f ptr _ out newPtr =>
          if w.ptr = ptr then
            some { w.goto t (.dropOld f out ptr) with ptr := newPtr, updates := w.updates ++ [f] }
          else some (w.goto t (.dropNew f newPtr))
      | _ => none
  | .free t =>
      match w.pc t with
      | .dropOld f _ oldPtr =>
          some { w.goto t .idle with
            heap := Function.update w.heap oldPtr none, returned := w.returned ++ [f] }
      | .dropNew f newPtr =>
          some { w.goto t (.load f) with heap := Function.update w.heap newPtr none }
      | _ => none

/-- `NLVec::new`: an empty vector at some address, and no thread in a call. -/
def World.boot (addr : Ptr) : World T F α β :=
  ⟨addr, Function.update (fun _ => none) addr (some []), fun _ => .idle, [], []⟩

/-- The contents after some calls one after the other, nothing if one of them panics. -/
def replay (fs : List F) : Option (List α) := fs.foldlM (fun vec f => (exec f vec).map Prod.snd) []

/-- The contents are those of the calls that returned, in some order, whenever no thread is between its
exchange and its return. -/
def World.Sequential (w : World T F α β) : Prop :=
  (∀ t f out oldPtr, w.pc t ≠ .dropOld f out oldPtr) →
    ∃ order vec, order.Perm w.returned ∧ replay exec order = some vec ∧ w.heap w.ptr = some vec

/-- An exchange succeeds only while the vector behind the pointer is the one that was cloned. -/
def World.Unchanged (w : World T F α β) : Act T F α → Prop
  | .exchange t => ∀ f ptr vec out newPtr, w.pc t = .exchange f ptr vec out newPtr →
      w.ptr = ptr → w.heap ptr = some vec
  | _ => True

/-! ### What a step does -/

/-- The vector that a thread has on the heap besides the published one. -/
def Pc.block : Pc F α β → Option Ptr
  | .exchange _ _ _ _ newPtr => some newPtr
  | .dropOld _ _ oldPtr => some oldPtr
  | .dropNew _ newPtr => some newPtr
  | _ => none

/-- What a step does: the thread moves on without touching the heap, moves its vector there, publishes
it or gives up, or frees a vector. -/
inductive Stepped (w : World T F α β) : Act T F α → World T F α β → Prop
  | moved (act : Act T F α) (t : T) (pc : Pc F α β) (hblock : (w.pc t).block = none)
      (hblock' : pc.block = none) (hexchange : ∀ u, act ≠ .exchange u) : Stepped w act (w.goto t pc)
  | placed (t : T) (addr : Ptr) (f : F) (ptr : Ptr) (vec vec' : List α) (out : β)
      (hpc : w.pc t = .toHeap f ptr vec) (hexec : exec f vec = some (out, vec'))
      (hfree : w.heap addr = none) :
      Stepped w (.toHeap t addr) { w.goto t (.exchange f ptr vec out addr) with
        heap := Function.update w.heap addr (some vec') }
  | published (t : T) (f : F) (vec : List α) (out : β) (newPtr : Ptr)
      (hpc : w.pc t = .exchange f w.ptr vec out newPtr) :
      Stepped w (.exchange t) { w.goto t (.dropOld f out w.ptr) with
        ptr := newPtr, updates := w.updates ++ [f] }
  | failed (t : T) (f : F) (ptr : Ptr) (vec : List α) (out : β) (newPtr : Ptr)
      (hpc : w.pc t = .exchange f ptr vec out newPtr) (hne : w.ptr ≠ ptr) :
      Stepped w (.exchange t) (w.goto t (.dropNew f newPtr))
  | freedOld (t : T) (f : F) (out : β) (oldPtr : Ptr) (hpc : w.pc t = .dropOld f out oldPtr) :
      Stepped w (.free t) { w.goto t .idle with
        heap := Function.update w.heap oldPtr none, returned := w.returned ++ [f] }
  | freedNew (t : T) (f : F) (newPtr : Ptr) (hpc : w.pc t = .dropNew f newPtr) :
      Stepped w (.free t) { w.goto t (.load f) with heap := Function.update w.heap newPtr none }

variable {exec} {w w' : World T F α β}

theorem step_spec {act : Act T F α} (h : step exec w act = some w') : Stepped exec w act w' := by
  cases act with
  | call t f =>
    cases hpc : w.pc t with
    | idle =>
      simp only [step, hpc] at h
      cases h
      exact .moved _ t _ (by rw [hpc]; rfl) rfl fun _ => nofun
    | _ => simp [step, hpc] at h
  | load t =>
    cases hpc : w.pc t with
    | load f =>
      simp only [step, hpc] at h
      cases h
      exact .moved _ t _ (by rw [hpc]; rfl) rfl fun _ => nofun
    | _ => simp [step, hpc] at h
  | clone t garbage =>
    cases hpc : w.pc t with
    | clone f ptr =>
      simp only [step, hpc] at h
      cases h
      exact .moved _ t _ (by rw [hpc]; rfl) rfl fun _ => nofun
    | _ => simp [step, hpc] at h
  | toHeap t addr =>
    cases hpc : w.pc t with
    | toHeap f ptr vec =>
      cases hexec : exec f vec with
      | none => simp [step, hpc, hexec] at h
      | some r =>
        obtain ⟨out, vec'⟩ := r
        simp only [step, hpc, hexec, Option.ite_none_right_eq_some, Option.some.injEq] at h
        obtain ⟨hfree, rfl⟩ := h
        exact .placed t addr f ptr vec vec' out hpc hexec hfree
    | _ => simp [step, hpc] at h
  | exchange t =>
    cases hpc : w.pc t with
    | exchange f ptr vec out newPtr =>
      simp only [step, hpc] at h
      split_ifs at h with hptr
      · subst hptr
        cases h
        exact .published t f vec out newPtr hpc
      · cases h
        exact .failed t f ptr vec out newPtr hpc hptr
    | _ => simp [step, hpc] at h
  | free t =>
    cases hpc : w.pc t with
    | dropOld f out oldPtr =>
      simp only [step, hpc] at h
      cases h
      exact .freedOld t f out oldPtr hpc
    | dropNew f newPtr =>
      simp only [step, hpc] at h
      cases h
      exact .freedNew t f newPtr hpc
    | _ => simp [step, hpc] at h

/-! ### The vectors on the heap -/

@[simp] theorem goto_pc_self (w : World T F α β) (t : T) (pc : Pc F α β) : (w.goto t pc).pc t = pc :=
  Function.update_self ..

theorem goto_pc_of_ne {t u : T} (h : u ≠ t) (pc : Pc F α β) : (w.goto t pc).pc u = w.pc u :=
  Function.update_of_ne h ..

/-- Each vector on the heap that is in use is the published one or one thread's own. -/
structure World.Owned (w : World T F α β) : Prop where
  published : (w.heap w.ptr).isSome
  live : ∀ t p, (w.pc t).block = some p → (w.heap p).isSome ∧ p ≠ w.ptr
  distinct : ∀ t u p, (w.pc t).block = some p → (w.pc u).block = some p → t = u

/-- A thread's own vector is what its closure made of the clone. -/
def World.Computed (exec : F → List α → Option (β × List α)) (w : World T F α β) : Prop :=
  ∀ t f ptr vec out newPtr, w.pc t = .exchange f ptr vec out newPtr →
    ∃ vec', exec f vec = some (out, vec') ∧ w.heap newPtr = some vec'

/-- The calls whose exchange succeeded have returned, or their threads only have to free the old
vector. -/
def World.Accounted (w : World T F α β) : Prop :=
  ∃ pending : List (T × F), pending.Nodup ∧
    (∀ t f, (t, f) ∈ pending ↔ ∃ out oldPtr, w.pc t = .dropOld f out oldPtr) ∧
    w.updates.Perm (w.returned ++ pending.map Prod.snd)

theorem goto_block {t u : T} {pc : Pc F α β} {p : Ptr} (h : ((w.goto t pc).pc u).block = some p) :
    (u = t ∧ pc.block = some p) ∨ (u ≠ t ∧ (w.pc u).block = some p) := by
  by_cases hut : u = t
  · subst hut
    rw [goto_pc_self] at h
    exact .inl ⟨rfl, h⟩
  · rw [goto_pc_of_ne hut] at h
    exact .inr ⟨hut, h⟩

/-- A thread that moves on and has no vector but the one it had. -/
theorem World.Owned.goto (h : w.Owned) {t : T} {pc : Pc F α β} (hpc : ∀ p, pc.block = some p →
    (w.pc t).block = some p) : (w.goto t pc).Owned := by
  have hblock : ∀ u p, ((w.goto t pc).pc u).block = some p → (w.pc u).block = some p := by
    intro u p hu
    obtain ⟨rfl, hp⟩ | ⟨-, hp⟩ := goto_block hu
    · exact hpc p hp
    · exact hp
  exact ⟨h.published, fun u p hu => h.live u p (hblock u p hu),
    fun u v p hu hv => h.distinct u v p (hblock u p hu) (hblock v p hv)⟩

/-- A vector that a thread frees, and then has no longer. -/
theorem World.Owned.free (h : w.Owned) {t : T} {p : Ptr} (hp : (w.pc t).block = some p)
    {pc : Pc F α β} (hpc : pc.block = none) (returned : List F) :
    World.Owned { w.goto t pc with heap := Function.update w.heap p none, returned } := by
  have hblock : ∀ u q, ((w.goto t pc).pc u).block = some q → u ≠ t ∧ (w.pc u).block = some q := by
    intro u q hu
    obtain ⟨-, hq⟩ | hq := goto_block hu
    · rw [hpc] at hq
      cases hq
    · exact hq
  refine ⟨?_, fun u q hu => ?_, fun u v q hu hv =>
    h.distinct u v q (hblock u q hu).2 (hblock v q hv).2⟩
  · show (Function.update w.heap p none w.ptr).isSome
    rw [Function.update_of_ne (h.live t p hp).2.symm]
    exact h.published
  · obtain ⟨hut, hq⟩ := hblock u q hu
    obtain ⟨hlive, hne⟩ := h.live u q hq
    have hqp : q ≠ p := by
      rintro rfl
      exact hut (h.distinct u t q hq hp)
    refine ⟨?_, hne⟩
    show (Function.update w.heap p none q).isSome
    rwa [Function.update_of_ne hqp]

/-- A vector moved to an address that was not in use. -/
theorem World.Owned.place (h : w.Owned) {t : T} {addr : Ptr} (hfree : w.heap addr = none)
    {pc : Pc F α β} (hpc : pc.block = some addr) (vec : List α) :
    World.Owned { w.goto t pc with heap := Function.update w.heap addr (some vec) } := by
  have hused : ∀ p, (w.heap p).isSome → p ≠ addr := by
    rintro p hp rfl
    rw [hfree] at hp
    cases hp
  have hkept : ∀ p, (w.heap p).isSome → (Function.update w.heap addr (some vec) p).isSome := by
    intro p hp
    rwa [Function.update_of_ne (hused p hp)]
  have hblock : ∀ u p, ((w.goto t pc).pc u).block = some p →
      (u = t ∧ p = addr) ∨ (w.pc u).block = some p := by
    intro u p hu
    obtain ⟨hut, hp⟩ | ⟨-, hp⟩ := goto_block hu
    · rw [hpc] at hp
      exact .inl ⟨hut, (Option.some.inj hp).symm⟩
    · exact .inr hp
  refine ⟨hkept _ h.published, fun u p hu => ?_, fun u v p hu hv => ?_⟩
  · obtain ⟨-, hp⟩ | hp := hblock u p hu
    · subst hp
      refine ⟨?_, (hused _ h.published).symm⟩
      show (Function.update w.heap p (some vec) p).isSome
      rw [Function.update_self]
      rfl
    · exact ⟨hkept p (h.live u p hp).1, (h.live u p hp).2⟩
  · obtain ⟨hut, hp⟩ | hp := hblock u p hu <;> obtain ⟨hvt, hq⟩ | hq := hblock v p hv
    · exact hut.trans hvt.symm
    · exact absurd hp (hused p (h.live v p hq).1)
    · exact absurd hq (hused p (h.live u p hp).1)
    · exact h.distinct u v p hp hq

/-- A thread's own vector is published, and the old one is the thread's. -/
theorem World.Owned.publish (h : w.Owned) {t : T} {newPtr : Ptr}
    (hnew : (w.pc t).block = some newPtr) {pc : Pc F α β} (hpc : pc.block = some w.ptr)
    (updates : List F) : World.Owned { w.goto t pc with ptr := newPtr, updates } := by
  have hblock : ∀ u p, ((w.goto t pc).pc u).block = some p →
      (u = t ∧ p = w.ptr) ∨ (u ≠ t ∧ (w.pc u).block = some p) := by
    intro u p hu
    obtain ⟨hut, hp⟩ | hp := goto_block hu
    · rw [hpc] at hp
      exact .inl ⟨hut, (Option.some.inj hp).symm⟩
    · exact .inr hp
  obtain ⟨hlive, hne⟩ := h.live t newPtr hnew
  refine ⟨hlive, fun u p hu => ?_, fun u v p hu hv => ?_⟩
  · obtain ⟨-, rfl⟩ | ⟨hut, hp⟩ := hblock u p hu
    · exact ⟨h.published, hne.symm⟩
    · refine ⟨(h.live u p hp).1, fun hpn => hut (h.distinct u t p hp ?_)⟩
      exact hnew.trans (congrArg some hpn.symm)
  · obtain ⟨hut, hp⟩ | ⟨-, hp⟩ := hblock u p hu <;> obtain ⟨hvt, hq⟩ | ⟨-, hq⟩ := hblock v p hv
    · exact hut.trans hvt.symm
    · exact absurd hp (h.live v p hq).2
    · exact absurd hq (h.live u p hp).2
    · exact h.distinct u v p hp hq

theorem World.Owned.step (h : w.Owned) {act : Act T F α} (hs : Stepped exec w act w') : w'.Owned := by
  cases hs with
  | moved _ t pc hblock hblock' _ => exact h.goto fun p hp => by rw [hblock'] at hp; cases hp
  | placed t addr f ptr vec vec' out hpc hexec hfree => exact h.place hfree rfl vec'
  | published t f vec out newPtr hpc => exact h.publish (by rw [hpc]; rfl) rfl _
  | failed t f ptr vec out newPtr hpc hne => exact h.goto fun p hp => by rwa [hpc]
  | freedOld t f out oldPtr hpc => exact h.free (by rw [hpc]; rfl) rfl _
  | freedNew t f newPtr hpc => exact h.free (by rw [hpc]; rfl) rfl _

/-! ### The threads -/

/-- The vectors that a step leaves on the heap: all but the one that is freed. -/
theorem Stepped.heap_kept {act : Act T F α} (hs : Stepped exec w act w') (howned : w.Owned) {t : T}
    {p : Ptr} {vec : List α} (hp : (w'.pc t).block = some p) (hp' : (w.pc t).block = some p)
    (hvec : w.heap p = some vec) : w'.heap p = some vec := by
  have hfreed : ∀ u q, (w.pc u).block = some q → u ≠ t → p ≠ q := by
    rintro u q hq hut rfl
    exact hut (howned.distinct u t p hq hp')
  cases hs with
  | moved => exact hvec
  | placed u addr f ptr v v' out hpc hexec hfree =>
    show Function.update w.heap addr (some v') p = some vec
    have hne : p ≠ addr := by
      rintro rfl
      rw [hfree] at hvec
      cases hvec
    rwa [Function.update_of_ne hne]
  | published => exact hvec
  | failed => exact hvec
  | freedOld u f out oldPtr hpc =>
    show Function.update w.heap oldPtr none p = some vec
    have hut : u ≠ t := by
      rintro rfl
      simp [World.goto, Pc.block] at hp
    rwa [Function.update_of_ne (hfreed u oldPtr (by rw [hpc]; rfl) hut)]
  | freedNew u f newPtr hpc =>
    show Function.update w.heap newPtr none p = some vec
    have hut : u ≠ t := by
      rintro rfl
      simp [World.goto, Pc.block] at hp
    rwa [Function.update_of_ne (hfreed u newPtr (by rw [hpc]; rfl) hut)]

/-- Where a thread is after a step: where it was, unless it made the step. -/
theorem Stepped.at_exchange {act : Act T F α} (hs : Stepped exec w act w') {t : T} {f : F} {ptr : Ptr}
    {vec : List α} {out : β} {newPtr : Ptr} (hpc : w'.pc t = .exchange f ptr vec out newPtr) :
    w.pc t = .exchange f ptr vec out newPtr ∨
      ∃ vec', exec f vec = some (out, vec') ∧ w'.heap newPtr = some vec' := by
  have hgoto : ∀ u pc, (w.goto u pc).pc t = .exchange f ptr vec out newPtr → pc.block = none ∨
      (∃ g q, pc = .dropNew g q) ∨ (∃ g o q, pc = .dropOld g o q) →
      w.pc t = .exchange f ptr vec out newPtr := by
    intro u pc hu hother
    by_cases htu : t = u
    · subst htu
      rw [goto_pc_self] at hu
      subst hu
      obtain h | ⟨g, q, h⟩ | ⟨g, o, q, h⟩ := hother <;> cases h
    · rwa [goto_pc_of_ne htu] at hu
  cases hs with
  | moved _ u pc _ hblock => exact .inl (hgoto u pc hpc (.inl hblock))
  | placed u addr g q v v' o hpc' hexec hfree =>
    by_cases htu : t = u
    · subst htu
      have heq : Pc.exchange g q v o addr = .exchange f ptr vec out newPtr :=
        (goto_pc_self w t _).symm.trans hpc
      cases heq
      exact .inr ⟨v', hexec, Function.update_self ..⟩
    · exact .inl ((goto_pc_of_ne htu _).symm.trans hpc)
  | published u g v o q hpc' => exact .inl (hgoto u _ hpc (.inr (.inr ⟨_, _, _, rfl⟩)))
  | failed u g q v o r hpc' hne => exact .inl (hgoto u _ hpc (.inr (.inl ⟨_, _, rfl⟩)))
  | freedOld u g o q hpc' => exact .inl (hgoto u _ hpc (.inl rfl))
  | freedNew u g q hpc' => exact .inl (hgoto u _ hpc (.inl rfl))

theorem World.Computed.step (h : w.Computed exec) (howned : w.Owned) {act : Act T F α}
    (hs : Stepped exec w act w') : w'.Computed exec := by
  intro t f ptr vec out newPtr hpc
  obtain hbefore | hnow := hs.at_exchange hpc
  · obtain ⟨vec', hexec, hvec⟩ := h t f ptr vec out newPtr hbefore
    exact ⟨vec', hexec, hs.heap_kept howned (by rw [hpc]; rfl) (by rw [hbefore]; rfl) hvec⟩
  · exact hnow

/-- The contents are those of the calls whose exchange succeeded, one after the other. -/
def World.Replayed (exec : F → List α → Option (β × List α)) (w : World T F α β) : Prop :=
  ∃ vec, w.heap w.ptr = some vec ∧ replay exec w.updates = some vec

theorem World.Replayed.step (h : w.Replayed exec) (howned : w.Owned) (hcomputed : w.Computed exec)
    {act : Act T F α} (hs : Stepped exec w act w') (hcurrent : w.Unchanged act) : w'.Replayed exec := by
  obtain ⟨vec, hvec, hreplay⟩ := h
  cases hs with
  | moved => exact ⟨vec, hvec, hreplay⟩
  | placed t addr f ptr v v' out hpc hexec hfree =>
    refine ⟨vec, ?_, hreplay⟩
    show Function.update w.heap addr (some v') w.ptr = some vec
    have hne : w.ptr ≠ addr := by
      rintro rfl
      rw [hfree] at hvec
      cases hvec
    rwa [Function.update_of_ne hne]
  | published t f v out newPtr hpc =>
    obtain ⟨vec', hexec, hnew⟩ := hcomputed t f _ v out newPtr hpc
    -- the clone is what the pointer leads to
    have hclone := hcurrent f w.ptr v out newPtr hpc rfl
    obtain rfl : v = vec := Option.some.inj (hclone.symm.trans hvec)
    refine ⟨vec', hnew, ?_⟩
    show replay exec (w.updates ++ [f]) = some vec'
    rw [replay, List.foldlM_append, ← replay, hreplay]
    simp [hexec]
  | failed => exact ⟨vec, hvec, hreplay⟩
  | freedOld t f out oldPtr hpc =>
    refine ⟨vec, ?_, hreplay⟩
    show Function.update w.heap oldPtr none w.ptr = some vec
    rwa [Function.update_of_ne (howned.live t oldPtr (by rw [hpc]; rfl)).2.symm]
  | freedNew t f newPtr hpc =>
    refine ⟨vec, ?_, hreplay⟩
    show Function.update w.heap newPtr none w.ptr = some vec
    rwa [Function.update_of_ne (howned.live t newPtr (by rw [hpc]; rfl)).2.symm]

/-- A thread that is not at the free of an old vector, before or after, changes nothing. -/
theorem World.Accounted.goto (h : w.Accounted) {t : T} (pc : Pc F α β)
    (hbefore : ∀ f out p, w.pc t ≠ .dropOld f out p) (hafter : ∀ f out p, pc ≠ .dropOld f out p) :
    (w.goto t pc).Accounted := by
  obtain ⟨pending, hnodup, hmem, hperm⟩ := h
  refine ⟨pending, hnodup, fun u f => ?_, hperm⟩
  rw [hmem]
  by_cases hut : u = t
  · subst hut
    rw [goto_pc_self]
    exact iff_of_false (fun ⟨o, p, hp⟩ => hbefore f o p hp) fun ⟨o, p, hp⟩ => hafter f o p hp
  · rw [goto_pc_of_ne hut]

theorem World.Accounted.step (h : w.Accounted) {act : Act T F α} (hs : Stepped exec w act w') :
    w'.Accounted := by
  cases hs with
  | moved _ t pc hblock hblock' _ =>
    refine h.goto pc (fun f out p hp => ?_) fun f out p hp => ?_
    · rw [hp] at hblock
      cases hblock
    · rw [hp] at hblock'
      cases hblock'
  | placed t addr f ptr vec vec' out hpc hexec hfree =>
    exact h.goto (.exchange f ptr vec out addr) (by rw [hpc]; exact fun _ _ _ => nofun)
      fun _ _ _ => nofun
  | published t f vec out newPtr hpc =>
    obtain ⟨pending, hnodup, hmem, hperm⟩ := h
    have hnot : ∀ g, (t, g) ∉ pending := by
      intro g hg
      obtain ⟨o, p, hp⟩ := (hmem t g).1 hg
      rw [hpc] at hp
      cases hp
    refine ⟨(t, f) :: pending, List.nodup_cons.2 ⟨hnot f, hnodup⟩, fun u g => ?_, ?_⟩
    · rw [List.mem_cons, hmem]
      show _ ↔ ∃ o p, (w.goto t (.dropOld f out w.ptr)).pc u = .dropOld g o p
      by_cases hut : u = t
      · subst hut
        rw [goto_pc_self]
        constructor
        · rintro (heq | ⟨o, p, hp⟩)
          · cases heq
            exact ⟨out, w.ptr, rfl⟩
          · exact absurd ((hmem u g).2 ⟨o, p, hp⟩) (hnot g)
        · rintro ⟨o, p, hp⟩
          cases hp
          exact .inl rfl
      · rw [goto_pc_of_ne hut]
        exact or_iff_right fun heq => hut (congrArg Prod.fst heq)
    · show (w.updates ++ [f]).Perm (w.returned ++ f :: pending.map Prod.snd)
      exact (List.perm_append_singleton f _).trans ((hperm.cons f).trans List.perm_middle.symm)
  | failed t f ptr vec out newPtr hpc hne =>
    exact h.goto (.dropNew f newPtr) (by rw [hpc]; exact fun _ _ _ => nofun) fun _ _ _ => nofun
  | freedOld t f out oldPtr hpc =>
    classical
    obtain ⟨pending, hnodup, hmem, hperm⟩ := h
    have htf : (t, f) ∈ pending := (hmem t f).2 ⟨out, oldPtr, hpc⟩
    have hcons := List.perm_cons_erase htf
    refine ⟨pending.erase (t, f), hnodup.erase _, fun u g => ?_, ?_⟩
    · rw [hnodup.mem_erase_iff, hmem]
      show _ ↔ ∃ o p, (w.goto t .idle).pc u = .dropOld g o p
      by_cases hut : u = t
      · subst hut
        rw [goto_pc_self]
        refine iff_of_false ?_ fun ⟨o, p, hp⟩ => nomatch hp
        rintro ⟨hne, o, p, hp⟩
        rw [hpc] at hp
        cases hp
        exact hne rfl
      · rw [goto_pc_of_ne hut]
        exact and_iff_right fun heq => hut (congrArg Prod.fst heq)
    · show w.updates.Perm ((w.returned ++ [f]) ++ (pending.erase (t, f)).map Prod.snd)
      rw [List.append_assoc]
      exact hperm.trans ((hcons.map Prod.snd).append_left _)
  | freedNew t f newPtr hpc =>
    exact h.goto (.load f) (by rw [hpc]; exact fun _ _ _ => nofun) fun _ _ _ => nofun

/-- What a run whose exchanges find the vector they cloned keeps. -/
structure World.Inv (exec : F → List α → Option (β × List α)) (w : World T F α β) : Prop where
  owned : w.Owned
  computed : w.Computed exec
  replayed : w.Replayed exec
  accounted : w.Accounted

omit [DecidableEq T] in
theorem World.inv_boot (addr : Ptr) : (World.boot (T := T) addr).Inv exec where
  owned := ⟨by simp [World.boot], fun _ _ hp => (nomatch hp), fun _ _ _ hp => (nomatch hp)⟩
  computed := fun t f ptr vec out newPtr hpc => nomatch hpc
  replayed := ⟨[], by simp [World.boot], rfl⟩
  accounted := ⟨[], List.nodup_nil, fun t f => by simp [World.boot], List.Perm.nil⟩

/-- The steps of one whole call of a thread that is not disturbed. -/
def alone (t : T) (f : F) (addr : Ptr) : List (Act T F α) :=
  [.call t f, .load t, .clone t [], .toHeap t addr, .exchange t, .free t]

/-- A `write` that is not disturbed does to the vector what its closure does to the clone. -/
theorem write_alone {t : T} {f : F} {vec vec' : List α} {out : β} {addr : Ptr}
    (hidle : w.pc t = .idle) (hvec : w.heap w.ptr = some vec) (hexec : exec f vec = some (out, vec'))
    (hfree : w.heap addr = none) :
    ∃ w', Machine.run (step exec) w (alone t f addr) = some w' ∧ w'.heap w'.ptr = some vec' ∧
      w'.pc = w.pc ∧ w'.returned = w.returned ++ [f] := by
  have hne : addr ≠ w.ptr := by
    rintro rfl
    rw [hfree] at hvec
    cases hvec
  refine ⟨⟨addr, Function.update (Function.update w.heap addr (some vec')) w.ptr none,
    Function.update w.pc t .idle, w.updates ++ [f], w.returned ++ [f]⟩, ?_, ?_, ?_, rfl⟩
  · simp [alone, Machine.run, step, World.goto, hidle, hvec, hexec, hfree]
  · show Function.update (Function.update w.heap addr (some vec')) w.ptr none addr = some vec'
    rw [Function.update_of_ne hne, Function.update_self]
  · exact Function.update_eq_self_iff.2 hidle.symm

/-- Pushes make as many elements as they are. -/
theorem length_of_replay_push {order : List (Op α)} (hpush : ∀ f ∈ order, ∃ ptr, f = .push ptr)
    {vec : List α} (h : replay Op.exec order = some vec) : vec.length = order.length := by
  induction order using List.reverseRecOn generalizing vec with
  | nil =>
    cases h
    rfl
  | append_singleton order f ih =>
    obtain ⟨ptr, rfl⟩ := hpush f (by simp)
    rw [replay, List.foldlM_append] at h
    obtain ⟨vec₀, h₀, h⟩ := Option.bind_eq_some_iff.1 h
    obtain rfl : vec₀ ++ [ptr] = vec := by simpa [Op.exec] using h
    rw [List.length_append, List.length_append, ih (fun f hf => hpush f (by simp [hf])) h₀]
    rfl

/-- Thread 0 clones the empty vector at address 1; thread 1 pushes 11 and 12, and the second vector is
at address 1 again.  The exchange of thread 0 succeeds and both updates are lost. -/
def lostUpdates : List (Act ℕ (Op ℕ) ℕ) :=
  [.call 0 (.push 10), .load 0, .clone 0 [], .toHeap 0 2] ++ alone 1 (.push 11) 3 ++ alone 1 (.push 12) 1
    ++ [.exchange 0, .free 0]

end AuroraOs.NLVec
