import Autorun.Dynarec.JumpTable

namespace Autorun.Dynarec

open Autorun.Lib Function

variable {S : Shape} {nativeNext : Nat} {fails : Nat → Bool}

/-- Indexes that agree up to a level give the bits below it. -/
theorem Shape.mod_start {a b n : Nat} (h : ∀ j < n, S.path a j = S.path b j) :
    a % 2 ^ S.start n = b % 2 ^ S.start n := by
  induction n with
  | zero => rw [Shape.start, Nat.pow_zero, Nat.mod_one, Nat.mod_one]
  | succ n ih =>
    have hlow := ih fun j hj => h j (Nat.lt_succ_of_lt hj)
    have hindex : a / 2 ^ S.start n % 2 ^ S.shift n = b / 2 ^ S.start n % 2 ^ S.shift n := h n (Nat.lt_succ_self n)
    rw [Shape.start, Nat.pow_add, Nat.mod_mul, Nat.mod_mul, hlow, hindex]

theorem Shape.Whole.path_ne (hS : S.Whole) {a b : Addr} (hne : a ≠ b) :
    ∃ j ≤ S.outer + 1, S.path a.toNat j ≠ S.path b.toNat j := by
  by_contra hsame
  have hall : ∀ j < S.outer + 2, S.path a.toNat j = S.path b.toNat j := by
    intro j hj
    by_contra hj'
    exact hsame ⟨j, Nat.le_of_lt_succ hj, hj'⟩
  have hmod := Shape.mod_start hall
  rw [hS, Nat.mod_eq_of_lt a.isLt, Nat.mod_eq_of_lt b.isLt] at hmod
  exact hne (BitVec.eq_of_toNat_eq hmod)

/-- There is memory for the tables that are missing on the way. -/
def Obtains (fails : Nat → Bool) : (k : Nat) → Radix Nat k → (Nat → Nat) → Prop
  | 0, _, _ => True
  | k + 1, t, path =>
    match t (path (k + 1)) with
    | some sub => Obtains fails k sub path
    | none => ∀ j ≤ k, fails j = false

/-- One level: the table below is the one that is there, or a new one if there is memory. -/
theorem createJumpTable_cases (nativeNext : Nat) (fails : Nat → Bool) (k : Nat) (t : Radix Nat (k + 1)) (path : Nat → Nat) :
    (t (path (k + 1)) = none ∧ fails k = true ∧ createJumpTable nativeNext fails (k + 1) t path = (false, t)) ∨
      ∃ sub, (t (path (k + 1)) = some sub ∨
          t (path (k + 1)) = none ∧ fails k = false ∧ sub = Radix.fresh nativeNext k) ∧
        createJumpTable nativeNext fails (k + 1) t path =
          ((createJumpTable nativeNext fails k sub path).1,
            update t (path (k + 1)) (some (createJumpTable nativeNext fails k sub path).2)) := by
  rw [createJumpTable]
  split
  case h_1 sub hsub => exact .inr ⟨sub, .inl hsub, rfl⟩
  case h_2 hnone =>
    cases hfails : fails k with
    | true => exact .inl ⟨hnone, rfl, rfl⟩
    | false => exact .inr ⟨_, .inr ⟨hnone, rfl, rfl⟩, rfl⟩

theorem createJumpTable_find (k : Nat) (t : Radix Nat k) (path path' : Nat → Nat) :
    (Radix.find k (createJumpTable nativeNext fails k t path).2 path').getD nativeNext =
      (Radix.find k t path').getD nativeNext := by
  induction k with
  | zero => rfl
  | succ k ih =>
    obtain ⟨-, -, hmade⟩ | ⟨sub, hsub, hmade⟩ := createJumpTable_cases nativeNext fails k t path
    · rw [hmade]
    rw [hmade, Radix.find, Radix.find]
    dsimp only
    by_cases hpath : path' (k + 1) = path (k + 1)
    · rw [hpath, update_self]
      refine (ih sub).trans ?_
      rcases hsub with hsub | ⟨hnone, -, rfl⟩
      · rw [hsub]
        rfl
      · rw [hnone]
        exact Radix.find_fresh ..
    · rw [update_of_ne hpath]

theorem createJumpTable_isSome (k : Nat) (t : Radix Nat k) (path : Nat → Nat) :
    (Radix.find k (createJumpTable nativeNext fails k t path).2 path).isSome =
      (createJumpTable nativeNext fails k t path).1 := by
  induction k with
  | zero => rfl
  | succ k ih =>
    obtain ⟨hnone, -, hmade⟩ | ⟨sub, -, hmade⟩ := createJumpTable_cases nativeNext fails k t path
    · rw [hmade, Radix.find]
      dsimp only
      rw [hnone]
      rfl
    · rw [hmade, Radix.find]
      dsimp only
      rw [update_self]
      exact ih sub

theorem Obtains.created {k : Nat} {t : Radix Nat k} {path : Nat → Nat} (h : Obtains fails k t path) :
    (createJumpTable nativeNext fails k t path).1 = true := by
  induction k with
  | zero => rfl
  | succ k ih =>
    unfold Obtains at h
    obtain ⟨hnone, hfails, -⟩ | ⟨sub, hsub, hmade⟩ := createJumpTable_cases nativeNext fails k t path
    · rw [hnone] at h
      rw [h k (Nat.le_refl k)] at hfails
      cases hfails
    rw [hmade]
    refine ih ?_
    rcases hsub with hsub | ⟨hnone, -, rfl⟩
    · rw [hsub] at h
      exact h
    · rw [hnone] at h
      cases k with
      | zero => exact trivial
      | succ k => exact fun j hj => h j (Nat.le_succ_of_le hj)

/-- Every address finds what was last stored for it; the common entries hold `native_next`. -/
structure World.Inv (nativeNext : Nat) (w : World S) : Prop where
  answer : ∀ a : Addr, (Radix.find _ w.table (S.path a.toNat)).getD nativeNext = w.last a
  default0 : ∀ i, w.default0 i = nativeNext
  oom : w.oomEntry = nativeNext
  handed : ∀ a e, (a, e) ∈ w.handed → e = .own (S.path a.toNat) ∨ e = .oom

/-- Through this entry `v` may be stored for an address: it is the address's own, or nothing changes in it. -/
def Fitting (nativeNext : Nat) (w : World S) (addr : Addr) (entry : Entry) (v ref : Nat) : Prop :=
  (entry = .own (S.path addr.toNat) ∧ (Radix.find _ w.table (S.path addr.toNat)).isSome) ∨
    ((entry = .oom ∨ ∃ i, entry = .default0 i) ∧ Radix.find _ w.table (S.path addr.toNat) = none ∧
      (v = nativeNext ∨ ref ≠ nativeNext))

variable {w : World S}

theorem World.Inv.content_own (h : w.Inv nativeNext) (a : Addr) :
    content w (.own (S.path a.toNat)) = w.last a := by
  rw [content, h.default0]
  exact h.answer a

variable {entry : Entry}

theorem World.Inv.content_shared (h : w.Inv nativeNext)
    (he : entry = .oom ∨ ∃ i, entry = .default0 i) : content w entry = nativeNext := by
  rcases he with rfl | ⟨i, rfl⟩
  · exact h.oom
  · exact h.default0 i

variable {ref v : Nat} {addr : Addr}

theorem World.Inv.storeIfRef (hS : S.Whole) (h : w.Inv nativeNext)
    (hfit : Fitting nativeNext w addr entry v ref) :
    (Dynarec.storeIfRef w addr entry v ref).2.Inv nativeNext := by
  unfold Dynarec.storeIfRef
  split
  case isFalse => exact h
  case isTrue href =>
    rcases hfit with ⟨rfl, hsome⟩ | ⟨hshared, hnone, hv⟩
    · refine ⟨fun a => ?_, h.default0, h.oom, h.handed⟩
      dsimp only [store]
      by_cases ha : a = addr
      · rw [ha, Radix.find_set_self, update_self]
        obtain ⟨x, hx⟩ := Option.isSome_iff_exists.mp hsome
        rw [hx]
        rfl
      · obtain ⟨j, hj, hne⟩ := hS.path_ne ha
        rw [Radix.find_set_of_ne _ _ hj hne, update_of_ne ha]
        exact h.answer a
    · -- only `native_next` is stored, over itself
      rw [h.content_shared hshared] at href
      have hv : v = nativeNext := hv.resolve_right fun hne => hne href.symm
      have hanswer : ∀ a : Addr, (Radix.find _ w.table (S.path a.toNat)).getD nativeNext =
          update w.last addr v a := by
        intro a
        by_cases ha : a = addr
        · rw [ha, update_self, hnone, hv]
          rfl
        · rw [update_of_ne ha]
          exact h.answer a
      rcases hshared with rfl | ⟨i, rfl⟩
      · exact ⟨hanswer, h.default0, hv, h.handed⟩
      · refine ⟨hanswer, fun j => ?_, h.oom, h.handed⟩
        dsimp only [store]
        by_cases hj : j = i
        · rw [hj, update_self, hv]
        · rw [update_of_ne hj]
          exact h.default0 j

theorem World.Inv.create (h : w.Inv nativeNext) (addr : Addr) (fails : Nat → Bool) :
    (createdEntry nativeNext w addr fails).2.Inv nativeNext :=
  ⟨fun a => (createJumpTable_find ..).trans (h.answer a), h.default0, h.oom, h.handed⟩

theorem createdEntry_cases (nativeNext : Nat) (w : World S) (addr : Addr) (fails : Nat → Bool) :
    let made := createdEntry nativeNext w addr fails
    (made.1 = .own (S.path addr.toNat) ∧ (Radix.find _ made.2.table (S.path addr.toNat)).isSome) ∨
      (made.1 = .oom ∧ Radix.find _ made.2.table (S.path addr.toNat) = none ∧
        ¬ Obtains fails _ w.table (S.path addr.toNat)) := by
  have hsome : (Radix.find _ (createJumpTable nativeNext fails _ w.table (S.path addr.toNat)).2
      (S.path addr.toNat)).isSome = (createJumpTable nativeNext fails _ w.table (S.path addr.toNat)).1 :=
    createJumpTable_isSome ..
  unfold createdEntry
  dsimp only
  split
  case isTrue hmade => exact .inl ⟨rfl, hsome.trans hmade⟩
  case isFalse hmade =>
    refine .inr ⟨rfl, ?_, fun hobtains => hmade hobtains.created⟩
    rw [Bool.not_eq_true] at hmade
    exact Option.isNone_iff_eq_none.mp (Option.isSome_eq_false_iff.mp (hsome.trans hmade))

/-- A block that is stored has an entry of its own: its tables are there or can be made. -/
def StoresOwn (nativeNext : Nat) (w : World S) : Op → Prop
  | .addIfDefault addr jmp fails => Obtains fails _ w.table (S.path addr.toNat) ∨ jmp = nativeNext
  | .setIfRef addr jmp ref fails =>
    Obtains fails _ w.table (S.path addr.toNat) ∨ jmp = nativeNext ∨ ref ≠ nativeNext
  | _ => True

theorem createdEntry_fitting
    (hown : Obtains fails _ w.table (S.path addr.toNat) ∨ v = nativeNext ∨ ref ≠ nativeNext) :
    Fitting nativeNext (createdEntry nativeNext w addr fails).2 addr (createdEntry nativeNext w addr fails).1 v ref := by
  obtain hmade | ⟨hoom, hnone, hnot⟩ := createdEntry_cases nativeNext w addr fails
  · exact .inl hmade
  · exact .inr ⟨.inl hoom, hnone, hown.resolve_left hnot⟩

theorem jumpTableEntry_fitting (w : World S) (addr : Addr) (ref : Nat) :
    Fitting nativeNext w addr (jumpTableEntry w addr) nativeNext ref := by
  unfold jumpTableEntry
  split
  case isTrue hsome => exact .inl ⟨rfl, hsome⟩
  case isFalse hnone =>
    rw [Bool.not_eq_true] at hnone
    exact .inr ⟨.inr ⟨_, rfl⟩, Option.isNone_iff_eq_none.mp (Option.isSome_eq_false_iff.mp hnone), .inl rfl⟩

theorem step_inv (hS : S.Whole) (w : World S) (op : Op) (hown : StoresOwn nativeNext w op) (h : w.Inv nativeNext) :
    (step nativeNext w op).Inv nativeNext := by
  cases op with
  | addIfDefault addr jmp fails =>
    exact (h.create addr fails).storeIfRef hS (createdEntry_fitting (hown.imp id .inl))
  | setIfRef addr jmp ref fails => exact (h.create addr fails).storeIfRef hS (createdEntry_fitting hown)
  | setDefault addr =>
    have hstored := h.storeIfRef hS (jumpTableEntry_fitting w addr (content w (jumpTableEntry w addr)))
    rwa [storeIfRef, if_pos rfl] at hstored
  | setDefaultIfRef addr jmp => exact h.storeIfRef hS (jumpTableEntry_fitting w addr jmp)
  | getAddress addr fails =>
    have hmade := h.create addr fails
    refine ⟨hmade.answer, hmade.default0, hmade.oom, fun a e hmem => ?_⟩
    rcases List.mem_cons.mp hmem with heq | hmem
    · obtain ⟨rfl, rfl⟩ := Prod.mk.inj heq
      exact (createdEntry_cases nativeNext w a fails).imp (·.1) (·.1)
    · exact h.handed a e hmem

theorem init_inv (S : Shape) (nativeNext : Nat) : (initJumpTables nativeNext : World S).Inv nativeNext := by
  refine ⟨fun a => ?_, fun _ => rfl, rfl, fun a e hmem => absurd hmem List.not_mem_nil⟩
  rw [initJumpTables, Radix.find]
  dsimp only
  split
  · exact Radix.find_fresh ..
  · rfl

theorem World.Inv.getJumpAddress (h : w.Inv nativeNext) (a : Addr) : getJumpAddress64 w a = w.last a := by
  unfold getJumpAddress64 jumpTableEntry
  split
  case isTrue => exact h.content_own a
  case isFalse hnone =>
    rw [Bool.not_eq_true] at hnone
    have hnone := Option.isNone_iff_eq_none.mp (Option.isSome_eq_false_iff.mp hnone)
    rw [h.content_shared (.inr ⟨_, rfl⟩), ← h.answer a, hnone]
    rfl

/-- Every address is answered with what was last stored for it, and an entry that was handed out for it holds that
or `native_next`, in every run in which a block is only stored where it has an entry of its own. -/
theorem jump_table_answers_own (hS : S.Whole) (nativeNext : Nat) (ops : List Op)
    (hops : Allowed (StoresOwn nativeNext) (step nativeNext) (initJumpTables nativeNext : World S) ops) :
    let w : World S := run (step nativeNext) (initJumpTables nativeNext) ops
    (∀ a, getJumpAddress64 w a = w.last a) ∧
      ∀ a e, (a, e) ∈ w.handed → content w e = w.last a ∨ content w e = nativeNext := by
  have h := run_allowed (P := World.Inv nativeNext) (step_inv hS) (init_inv S nativeNext) ops hops
  refine ⟨h.getJumpAddress, fun a e hmem => ?_⟩
  rcases h.handed a e hmem with rfl | rfl
  · exact .inl (h.content_own a)
  · exact .inr h.oom

def fiveLevels : Shape where
  shift := fun k => if k = 4 then 16 else 12
  outer := 3

theorem jump_table_answers_own_once :
    let ops : List Op := [.addIfDefault 0x1000 77 fun _ => false, .addIfDefault 0x2000 88 fun _ => false,
      .getAddress 0x1000 fun _ => true]
    let w : World fiveLevels := run (step 1) (initJumpTables 1) ops
    getJumpAddress64 w 0x1000 = 77 ∧ getJumpAddress64 w 0x2000 = 88 ∧
      ∀ a e, (a, e) ∈ w.handed → content w e = w.last a ∨ content w e = 1 := by
  have hops : Allowed (StoresOwn 1) (step 1) (initJumpTables 1 : World fiveLevels)
      [.addIfDefault 0x1000 77 fun _ => false, .addIfDefault 0x2000 88 fun _ => false,
        .getAddress 0x1000 fun _ => true] :=
    ⟨.inl fun _ _ => rfl, .inl fun _ _ => rfl, trivial, trivial⟩
  have hwhole : fiveLevels.Whole := rfl
  have h := jump_table_answers_own hwhole 1 _ hops
  exact ⟨(h.1 0x1000).trans (by decide +kernel), (h.1 0x2000).trans (by decide +kernel), h.2⟩

/-- Without memory for its tables a block is stored in the common entry, which another address is given. -/
theorem oom_entry_answers_another :
    let ops : List Op := [.addIfDefault 0x1000 77 fun _ => true, .getAddress 0x2000 fun _ => true]
    let w : World fiveLevels := run (step 1) (initJumpTables 1) ops
    (w.last 0x1000 = 77 ∧ getJumpAddress64 w 0x1000 = 1) ∧
      w.last 0x2000 = 1 ∧ w.handed.map (fun h => (h.1, content w h.2)) = [(0x2000, 77)] := by
  decide +kernel

end Autorun.Dynarec
