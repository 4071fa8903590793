import Autorun.Swap.StoreOpen

namespace Autorun.Swap.Store
open Lib List

/-- The store as the caller addresses it, segments and headers hidden. -/
def flat (store : SwapStore) (o : Nat) : UInt8 :=
  store.files (o / segmentSize) (headerSize + o % segmentSize)

/-- Two stores of one size that agree outside `[offset, offset + size)`. -/
structure SameOutside (offset size : Nat) (store store' : SwapStore) : Prop where
  size_eq : store'.size = store.size
  calls_le : store.calls ≤ store'.calls
  outside : ∀ o, ¬ (offset ≤ o ∧ o < offset + size) → flat store' o = flat store o

/-- An error the file system gave to a transfer no earlier than `calls`. -/
def FileSystemError (fs : FileSystem) (calls : Nat) (e : Errno) : Prop :=
  ∃ n code, calls ≤ n ∧ fs.fails n = some code ∧ e = .io code

variable {fs : FileSystem}

theorem FileSystemError.mono {e : Errno} (h : FileSystemError fs n e)
    (hle : m ≤ n) : FileSystemError fs m e := by
  obtain ⟨k, code, hk, hf, he⟩ := h
  exact ⟨k, code, Nat.le_trans hle hk, hf, he⟩

@[simp] theorem slice_length (f : Nat → UInt8) (offset size : Nat) :
    (slice f offset size).length = size := by
  simp [slice]

theorem slice_append (f : Nat → UInt8) (offset a b : Nat) :
    slice f offset a ++ slice f (offset + a) b = slice f offset (a + b) := by
  simp only [slice, range_add, map_append, map_map]
  congr 1
  apply map_congr_left
  intro i _
  simp [Nat.add_assoc]

variable {offset size : Nat}

theorem slice_congr {f g : Nat → UInt8} {offset' : Nat}
    (h : ∀ i, i < size → f (offset + i) = g (offset' + i)) :
    slice f offset size = slice g offset' size := by
  apply map_congr_left
  intro i hi
  exact h i (mem_range.mp hi)

/-- The place of a store offset inside a chunk that does not leave its segment. -/
theorem segment_place {chunk o : Nat} (hc : chunk ≤ segmentSize - offset % segmentSize) :
    (o / segmentSize = offset / segmentSize ∧
      headerSize + offset % segmentSize ≤ headerSize + o % segmentSize ∧
      headerSize + o % segmentSize < headerSize + offset % segmentSize + chunk) ↔
    offset ≤ o ∧ o < offset + chunk := by
  unfold segmentSize headerSize at *
  omega

theorem flat_splice (store : SwapStore) (calls offset : Nat) (bytes : List UInt8)
    (hc : bytes.length ≤ segmentSize - offset % segmentSize) (o : Nat) :
    flat { store with
        calls := calls
        files := Function.update store.files (offset / segmentSize)
          (splice (store.files (offset / segmentSize))
            (headerSize + offset % segmentSize) bytes) } o =
      if offset ≤ o ∧ o < offset + bytes.length then bytes.getD (o - offset) 0
      else flat store o := by
  have hplace := segment_place (o := o) hc
  unfold flat
  by_cases hi : o / segmentSize = offset / segmentSize
  · simp only [hi, true_and] at hplace
    simp only [hi, Function.update_self, splice, hplace]
    split
    · congr 1
      unfold segmentSize headerSize at *
      omega
    · rfl
  · have hout : ¬ (offset ≤ o ∧ o < offset + bytes.length) := by
      rw [← hplace]
      exact fun h => hi h.1
    rw [if_neg hout]
    simp [Function.update_of_ne hi]

variable {r : Except Errno (List UInt8)} {data : List UInt8} {store store' : SwapStore}

theorem transfer_write (hc : data.length ≤ segmentSize - offset % segmentSize)
    (h : transfer fs store (offset / segmentSize) (headerSize + offset % segmentSize) data true =
      (r, store')) :
    SameOutside offset data.length store store' ∧
      (∀ e, r = .error e → FileSystemError fs store.calls e) ∧
      (∀ moved, r = .ok moved → ∀ o, offset ≤ o → o < offset + data.length →
        flat store' o = data.getD (o - offset) 0) := by
  unfold transfer at h
  cases hf : fs.fails store.calls with
  | some code =>
    simp only [hf] at h
    obtain ⟨rfl, rfl⟩ := h
    refine ⟨⟨rfl, Nat.le_succ _, ?_⟩, ?_, by simp⟩
    · intro o ho
      rw [flat_splice _ _ _ _ (by simpa using hc)]
      simp [if_neg ho]
    · intro e he
      cases he
      exact ⟨_, code, Nat.le_refl _, hf, rfl⟩
  | none =>
    simp only [hf] at h
    obtain ⟨rfl, rfl⟩ := h
    refine ⟨⟨rfl, Nat.le_succ _, ?_⟩, by simp, ?_⟩
    · intro o ho
      rw [flat_splice _ _ _ _ hc, if_neg ho]
    · intro moved _ o hl hu
      rw [flat_splice _ _ _ _ hc, if_pos ⟨hl, hu⟩]

theorem transfer_read (hc : data.length ≤ segmentSize - offset % segmentSize)
    (h : transfer fs store (offset / segmentSize) (headerSize + offset % segmentSize) data false =
      (r, store')) :
    SameOutside offset 0 store store' ∧
      (∀ e, r = .error e → FileSystemError fs store.calls e) ∧
      (∀ moved, r = .ok moved → moved = slice (flat store) offset data.length) := by
  unfold transfer at h
  cases hf : fs.fails store.calls with
  | some code =>
    simp only [hf] at h
    obtain ⟨rfl, rfl⟩ := h
    refine ⟨⟨rfl, Nat.le_succ _, fun _ _ => rfl⟩, ?_, by simp⟩
    intro e he
    cases he
    exact ⟨_, code, Nat.le_refl _, hf, rfl⟩
  | none =>
    simp only [hf] at h
    obtain ⟨rfl, rfl⟩ := h
    refine ⟨⟨rfl, Nat.le_succ _, fun _ _ => rfl⟩, by simp, ?_⟩
    intro moved hm
    cases hm
    apply slice_congr
    intro i hi
    have hplace := (segment_place (o := offset + i) hc).mpr (by omega)
    rw [flat, hplace.1]
    congr 1
    unfold segmentSize headerSize at *
    omega

theorem SameOutside.refl (offset size : Nat) (store : SwapStore) :
    SameOutside offset size store store :=
  ⟨rfl, Nat.le_refl _, fun _ _ => rfl⟩

theorem SameOutside.trans {a b c : SwapStore} (h1 : SameOutside o1 n1 a b)
    (h2 : SameOutside o2 n2 b c) (hin1 : o ≤ o1 ∧ o1 + n1 ≤ o + n ∨ n1 = 0)
    (hin2 : o ≤ o2 ∧ o2 + n2 ≤ o + n ∨ n2 = 0) : SameOutside o n a c := by
  refine ⟨h2.size_eq.trans h1.size_eq, Nat.le_trans h1.calls_le h2.calls_le, ?_⟩
  intro x hx
  rw [h2.outside x (by omega), h1.outside x (by omega)]

theorem chunk_bounds (offset : Nat) (hd : data.length ≠ 0) :
    0 < min data.length (segmentSize - offset % segmentSize) ∧
    (data.take (min data.length (segmentSize - offset % segmentSize))).length =
      min data.length (segmentSize - offset % segmentSize) ∧
    (data.take (min data.length (segmentSize - offset % segmentSize))).length ≤
      segmentSize - offset % segmentSize := by
  have : offset % segmentSize < segmentSize := Nat.mod_lt _ (by decide)
  rw [length_take]
  omega

/-- What a transfer does: a write leaves the data in its range, a read changes nothing and hands back the range. -/
def Moves (fs : FileSystem) (writing : Bool) (store : SwapStore) (offset : Nat) (data : List UInt8)
    (r : Except Errno (List UInt8)) (store' : SwapStore) : Prop :=
  SameOutside offset (if writing then data.length else 0) store store' ∧
    (∀ e, r = .error e → FileSystemError fs store.calls e) ∧
    ∀ moved, r = .ok moved → if writing then ∀ o, offset ≤ o → o < offset + data.length →
      flat store' o = data.getD (o - offset) 0 else moved = slice (flat store) offset data.length

theorem transfer_moves {writing : Bool} (hc : data.length ≤ segmentSize - offset % segmentSize)
    (h : transfer fs store (offset / segmentSize) (headerSize + offset % segmentSize) data writing = (r, store')) :
    Moves fs writing store offset data r store' := by
  cases writing with
  | true => exact transfer_write hc h
  | false => exact transfer_read hc h

theorem moves_nothing (fs : FileSystem) (writing : Bool) (store : SwapStore) (offset : Nat) (hd : data.length = 0) :
    Moves fs writing store offset data (.ok []) store := by
  refine ⟨.refl _ _ _, by simp, fun moved hm => ?_⟩
  cases hm
  split
  · intro o hl hu
    omega
  · simp [slice, hd]

theorem Moves.seq {writing : Bool} {mid : SwapStore} {moved : List UInt8} (hle : n ≤ data.length)
    (h : Moves fs writing store offset (data.take n) (.ok moved) mid)
    (h' : Moves fs writing mid (offset + n) (data.drop n) r store') :
    Moves fs writing store offset data (r.map (moved ++ ·)) store' := by
  obtain ⟨hsame, -, hok⟩ := h
  obtain ⟨hsame', herr', hok'⟩ := h'
  have hlen : (data.take n).length = n := by simp [hle]
  have hdrop : (data.drop n).length = data.length - n := length_drop
  rw [hlen] at hsame hok
  rw [hdrop] at hsame' hok'
  refine ⟨hsame.trans hsame' ?_ ?_, fun e he => ?_, fun all hall => ?_⟩
  · split <;> omega
  · split <;> omega
  · cases r with
    | error e' =>
      cases he
      exact (herr' _ rfl).mono hsame.calls_le
    | ok tail => cases he
  · cases r with
    | error e' => cases hall
    | ok tail =>
      cases hall
      have hfirst := hok moved rfl
      have hrest := hok' tail rfl
      cases writing with
      | true =>
        intro o hl hu
        by_cases ho : o < offset + n
        · rw [hsame'.outside o (by omega), hfirst o hl ho]
          simp [show o - offset < n by omega]
        · rw [hrest o (by omega) (by omega)]
          simp [show n + (o - (offset + n)) = o - offset by omega]
      | false =>
        have htail : tail = slice (flat store) (offset + n) (data.length - n) := by
          rw [show tail = _ from hrest]
          exact slice_congr fun i _ => hsame.outside _ (by simp)
        change moved ++ tail = _
        rw [show moved = _ from hfirst, htail, slice_append, Nat.add_sub_cancel' hle]

/-- A transfer cut at the segment boundaries is one transfer of the flat range. -/
theorem chunks_moves {writing : Bool} (turns : Nat) (hn : data.length ≤ turns)
    (h : transferChunks fs writing turns store offset data = (r, store')) :
    Moves fs writing store offset data r store' := by
  induction turns generalizing store offset data r store' with
  | zero =>
    obtain ⟨rfl, rfl⟩ := h
    exact moves_nothing fs writing _ _ (by omega)
  | succ turns ih =>
    rw [transferChunks] at h
    by_cases hd : data.length = 0
    · rw [if_pos hd] at h
      cases h
      exact moves_nothing fs writing _ _ hd
    rw [if_neg hd] at h
    dsimp only at h
    obtain ⟨hpos, hlen, hfit⟩ := chunk_bounds offset hd
    generalize hk : min data.length (segmentSize - offset % segmentSize) = chunk at *
    have hle : chunk ≤ data.length := by omega
    cases ht : transfer fs store (offset / segmentSize) (headerSize + offset % segmentSize)
        (data.take chunk) writing with
    | mk first mid =>
    have hfirst := transfer_moves hfit ht
    simp only [ht] at h
    cases first with
    | error e =>
      cases h
      refine ⟨hfirst.1.trans (.refl offset 0 _) ?_ (by omega), hfirst.2.1, by simp⟩
      split <;> omega
    | ok moved =>
      cases hr : transferChunks fs writing turns mid (offset + chunk) (data.drop chunk) with
      | mk rest last =>
      have hmoves := hfirst.seq hle (ih (by rw [length_drop]; omega) hr)
      simp only [hr] at h
      cases rest <;> cases h <;> exact hmoves

/-- `swap_store_write` over the flat store: either the whole range holds the data, or an
error is returned and only the range is in doubt. -/
theorem store_write {r : Option Errno} (hin : offset + data.length ≤ store.size)
    (h : swapStoreWrite fs store offset data = (r, store')) :
    SameOutside offset data.length store store' ∧
      (∀ e, r = some e → FileSystemError fs store.calls e) ∧
      (r = none → ∀ o, offset ≤ o → o < offset + data.length →
        flat store' o = data.getD (o - offset) 0) := by
  have hcheck : ¬ (offset > store.size ∨ data.length > store.size - offset) := by omega
  unfold swapStoreWrite storeTransfer at h
  rw [if_neg hcheck] at h
  cases hc : transferChunks fs true data.length store offset data with
  | mk result last =>
  obtain ⟨hsame, herr, hok⟩ := chunks_moves _ (Nat.le_refl _) hc
  rw [hc] at h
  cases result with
  | error e =>
    cases h
    exact ⟨hsame, fun e he => herr e (by rw [Option.some.inj he]), by simp⟩
  | ok moved =>
    cases h
    exact ⟨hsame, by simp, fun _ => hok moved rfl⟩

theorem store_read (hin : offset + size ≤ store.size)
    (h : swapStoreRead fs store offset size = (r, store')) :
    SameOutside offset 0 store store' ∧
      (∀ e, r = .error e → FileSystemError fs store.calls e) ∧
      (∀ bytes, r = .ok bytes → bytes = slice (flat store) offset size) := by
  unfold swapStoreRead storeTransfer at h
  rw [length_replicate, if_neg (by omega)] at h
  have hread := chunks_moves _ (by rw [length_replicate]) h
  rw [Moves, length_replicate] at hread
  exact hread

/-! The files behind the flat store. -/

theorem chunks_eq_pieces (fs : FileSystem) (writing : Bool) (turns : Nat) (store : SwapStore) (offset : Nat)
    (data : List UInt8) : transferChunks fs writing turns store offset data =
      transferPieces fs writing (pieces turns offset data.length) store data := by
  induction turns generalizing store offset data with
  | zero => rfl
  | succ turns ih =>
    rw [transferChunks, pieces]
    split
    · rfl
    · simp [transferPieces, ih]

theorem get_segmentSizes (files left i : Nat) : (segmentSizes files left)[i]? =
    if i < files ∧ i * segmentSize < left then some (min (left - i * segmentSize) segmentSize) else none := by
  induction files generalizing left i with
  | zero => simp [segmentSizes]
  | succ files ih =>
    rw [segmentSizes]
    by_cases hleft : left = 0
    · simp [hleft]
    · rw [if_neg hleft]
      cases i with
      | zero => simp [Nat.pos_of_ne_zero hleft]
      | succ i =>
        rw [List.getElem?_cons_succ, ih]
        unfold segmentSize
        congr 1
        · simp only [eq_iff_iff]
          omega
        · congr 1
          omega

/-- A range within the data of a segment file that is there. -/
def Piece.Inside (p : Piece) (size : Nat) : Prop :=
  headerSize ≤ p.position ∧ ∃ bytes, (segmentSizes StoreOpen.storeFiles size)[p.index]? = some bytes ∧
    p.position + p.length ≤ headerSize + bytes

theorem pieces_inside (hmost : total ≤ StoreOpen.storeFiles * segmentSize) (turns : Nat)
    (hin : offset + size ≤ total) : ∀ p ∈ pieces turns offset size, p.Inside total := by
  induction turns generalizing offset size with
  | zero => nofun
  | succ turns ih =>
    rw [pieces]
    split
    · nofun
    · intro p hp
      rcases mem_cons.mp hp with rfl | hp
      · refine ⟨Nat.le_add_right _ _, _, (get_segmentSizes _ _ _).trans (if_pos ?_), ?_⟩
        · unfold segmentSize StoreOpen.storeFiles at *
          dsimp only
          omega
        · unfold segmentSize at *
          dsimp only
          omega
      · exact ih (by omega) p hp

/-- What a request does to an array of so many bytes. -/
def flatRequest (size : Nat) (a : Nat → UInt8) (r : Request) : Nat → UInt8 :=
  if r.offset + r.data.length ≤ size ∧ r.writing = true then splice a r.offset r.data else a

theorem request_flat (fs : FileSystem) (store : SwapStore) (r : Request) :
    (request fs store r).size = store.size ∧
      ((∀ n, fs.fails n = none) → flat (request fs store r) = flatRequest store.size (flat store) r) := by
  unfold request storeTransfer flatRequest
  split
  · exact ⟨rfl, fun _ => (if_neg (by omega)).symm⟩
  · cases hc : transferChunks fs r.writing r.data.length store r.offset r.data with
    | mk result last =>
    obtain ⟨hsame, herr, hok⟩ := chunks_moves _ (Nat.le_refl _) hc
    refine ⟨hsame.size_eq, fun hnone => funext fun o => ?_⟩
    cases result with
    | error e =>
      obtain ⟨n, code, -, hn, -⟩ := herr e rfl
      rw [hnone] at hn
      cases hn
    | ok moved =>
      have hok := hok moved rfl
      cases hw : r.writing with
      | true =>
        rw [hw] at hsame hok
        rw [if_pos ⟨by omega, rfl⟩, splice]
        split
        case isTrue hin => exact hok o hin.1 hin.2
        case isFalse hout => exact hsame.outside o hout
      | false =>
        rw [hw] at hsame
        rw [if_neg (fun h => Bool.false_ne_true h.2)]
        exact hsame.outside o (by simp)

theorem run_flat (fs : FileSystem) (store : SwapStore) (rs : List Request) :
    (run (request fs) store rs).size = store.size ∧ ((∀ n, fs.fails n = none) →
      flat (run (request fs) store rs) = run (flatRequest store.size) (flat store) rs) := by
  induction rs generalizing store with
  | nil => exact ⟨rfl, fun _ => rfl⟩
  | cons r rs ih =>
    obtain ⟨hsize, hflat⟩ := request_flat fs store r
    obtain ⟨hsize', hflat'⟩ := ih (request fs store r)
    refine ⟨hsize'.trans hsize, fun hnone => ?_⟩
    rw [run_cons, run_cons, hflat' hnone, hflat hnone, hsize]

/-- After any requests the store is one array: each request stays within the data of the files that
are there and moves the bytes of the array, or is refused and transfers nothing. -/
theorem store_is_one_array (fs : FileSystem) (store : SwapStore) (megabytes : Nat) (hmost : megabytes ≤ 8192)
    (hsize : store.size = megabytes * 1048576) (before : List Request) (r : Request) :
    let s := run (request fs) store before
    let done := storeTransfer fs s r.offset r.data r.writing
    ((∀ n, fs.fails n = none) → flat s = run (flatRequest store.size) (flat store) before) ∧
      if r.offset + r.data.length ≤ store.size then
        done = transferPieces fs r.writing (pieces r.data.length r.offset r.data.length) s r.data ∧
          (∀ p ∈ pieces r.data.length r.offset r.data.length, p.Inside store.size) ∧
          Moves fs r.writing s r.offset r.data done.1 done.2
      else done = (.error .inval, s) := by
  intro s done
  obtain ⟨hsame, hflat⟩ := run_flat fs store before
  have hsame : s.size = store.size := hsame
  refine ⟨hflat, ?_⟩
  split
  case isTrue hin =>
    have hdone : done = transferChunks fs r.writing r.data.length s r.offset r.data :=
      if_neg (by omega)
    rw [hdone]
    refine ⟨chunks_eq_pieces .., pieces_inside ?_ _ hin, chunks_moves _ (Nat.le_refl _) rfl⟩
    unfold segmentSize StoreOpen.storeFiles
    omega
  case isFalse hout => exact if_pos (by omega)

/-- Two writes that overlap, the first across the end of a segment, and a read across both. -/
theorem overlapping_writes_read :
    let fs : FileSystem := ⟨fun _ => none, fun _ _ => 0⟩
    let store : SwapStore := ⟨1025 * 1048576, fun _ _ => 0, 0⟩
    let s := run (request fs) store [⟨1073741822, [1, 2, 3], true⟩, ⟨1073741824, [4, 5], true⟩]
    flat s = splice (splice (flat store) 1073741822 [1, 2, 3]) 1073741824 [4, 5] ∧
      (swapStoreRead fs s 1073741821 6).1 = .ok [0, 1, 2, 4, 5, 0] ∧
      swapStoreRead fs s (1025 * 1048576) 1 = (.error .inval, s) := by
  intro fs store s
  have harray := store_is_one_array fs store 1025 (by decide) rfl
    [⟨1073741822, [1, 2, 3], true⟩, ⟨1073741824, [4, 5], true⟩]
  exact ⟨(harray ⟨0, [], false⟩).1 fun _ => rfl, by decide +kernel, (harray ⟨1025 * 1048576, [0], false⟩).2⟩

end Autorun.Swap.Store
