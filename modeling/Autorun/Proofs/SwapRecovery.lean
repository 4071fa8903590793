import Mathlib.Data.Nat.Digits.Defs
import Autorun.Swap.StoreOpen

namespace Autorun.Swap.StoreOpen
open Lib Store Function List

/-! The header is read back. -/

theorem dropWhile_toDigits (n : Nat) (rest : List Char) :
    (Nat.toDigits 10 n ++ rest).dropWhile isspace = Nat.toDigits 10 n ++ rest := by
  obtain ⟨d, ds, hd⟩ := exists_cons_of_ne_nil (l := Nat.toDigits 10 n) Nat.toDigits_ne_nil
  have hdigit : d.isDigit := isDigit_toDigits (n := n) (hd ▸ mem_cons_self)
  rw [hd, cons_append, dropWhile_cons_of_neg (by simp [isspace_of_isDigit hdigit])]

theorem scanText_magic (rest : List Char) :
    scanText magic (magic ++ rest) = some (rest.dropWhile isspace) := by
  simp [magic, scanText, isspace]

variable {index size n : Nat}

theorem scanHeader_headerText (hi : index < 2 ^ 32) (hs : size < 2 ^ 64) :
    scanHeader (headerText index size) = some (index, size) := by
  have hbreak : ∀ c, (['\n'] ++ Nat.toDigits 10 size ++ ['\n']).head? = some c → c.isDigit = false := by
    rintro c ⟨⟩
    rfl
  have htext : scanText magic (headerText index size) =
      some (Nat.toDigits 10 index ++ (['\n'] ++ Nat.toDigits 10 size ++ ['\n'])) := by
    have hassoc : headerText index size = magic ++
        (Nat.toDigits 10 index ++ (['\n'] ++ Nat.toDigits 10 size ++ ['\n'])) := by
      simp [headerText]
    rw [hassoc, scanText_magic, dropWhile_toDigits]
  have hspace : (['\n'] ++ Nat.toDigits 10 size ++ ['\n']).dropWhile isspace =
      Nat.toDigits 10 size ++ ['\n'] := dropWhile_toDigits size _
  have hlong : scanLong (Nat.toDigits 10 size ++ ['\n']) = some size := by
    have hread : readNumber (Nat.toDigits 10 size ++ ['\n']) = _ :=
      readNumber_toDigits size (by rintro c ⟨⟩; rfl)
    rw [scanLong, hread]
    simp only [Nat.toDigits_ne_nil, ↓reduceIte, Number.unsigned, value_toDigits, Bool.false_eq_true]
    rw [if_neg (by omega)]
  rw [scanHeader, htext]
  simp only [scanUnsigned_toDigits hi hbreak, hspace, hlong, Option.map_some]

theorem cstr_header (hi : index < 2 ^ 32) (hs : size < 2 ^ 64) :
    cstr (header index size) = headerText index size := by
  have hlen : (headerText index size).length < headerSize - 1 := by
    have h1 := Nat.toDigits_length 10 index 10 (by decide) (by omega)
    have h2 := Nat.toDigits_length 10 size 20 (by decide) (by omega)
    have h3 : magic.length = 19 := by decide
    simp only [headerText, length_append, length_singleton, headerSize]
    omega
  have h0 : '\x00' ∉ headerText index size := by
    have hdigits (n : Nat) : '\x00' ∉ Nat.toDigits 10 n := fun hm =>
      absurd (isDigit_toDigits hm) (by decide)
    simp only [headerText, mem_append, hdigits]
    decide
  obtain ⟨m, hm⟩ : ∃ m, headerSize = (headerText index size).length + (m + 1) :=
    ⟨headerSize - (headerText index size).length - 1, by omega⟩
  have happ : header index size = headerText index size ++ '\x00' :: List.replicate m '\x00' := by
    rw [header, take_of_length_le (Nat.le_of_lt hlen), take_append, take_of_length_le (by omega),
      take_replicate, ← replicate_succ]
    congr 2
    omega
  rw [happ, cstr_append_terminator h0]

/-- A file whose header is complete and covers it. -/
def Complete (index : Nat) (f : File) : Prop :=
  ∃ size, 0 < size ∧ size ≤ segmentSize ∧ f.head = header index size ∧ f.size ≤ size + headerSize

theorem valid_iff (hi : index < 2 ^ 32) (f : File) : Valid index f ↔ Complete index f := by
  have hlimit : segmentSize < 2 ^ 64 := by decide
  constructor
  · rintro ⟨_, found, size, _, rfl, h0, hmax, hhead, hsize⟩
    exact ⟨size, Nat.pos_of_ne_zero h0, hmax, hhead, hsize⟩
  · rintro ⟨size, hpos, hmax, hhead, hsize⟩
    have hscan : scanHeader (cstr f.head) = some (index, size) := by
      rw [hhead, cstr_header hi (by omega), scanHeader_headerText hi (by omega)]
    have hlen : headerSize ≤ f.size := by
      have hfits := f.fits
      rw [hhead, length_header] at hfits
      omega
    exact ⟨hlen, index, size, hscan, rfl, Nat.ne_of_gt hpos, hmax, hhead, hsize⟩

/-! Removing. -/

variable {ns : List Name} {dir : Dir} {directory : List Char}

theorem collect_some {out : List Name}
    (h : collect directory dir ns = some out) :
    (∀ n ∈ ns, (pathOf directory n).length < tempSize) ∧
      (∀ n ∈ ns, ∀ f, dir n = some f → Valid n.index f ∧ n ∈ out) := by
  induction ns generalizing out with
  | nil => simp
  | cons n ns ih =>
    rw [collect] at h
    split at h
    case isTrue => cases h
    case isFalse hlen =>
      have hlen := Nat.lt_of_not_le hlen
      split at h
      case h_1 hn =>
        obtain ⟨h1, h2⟩ := ih h
        refine ⟨forall_mem_cons.mpr ⟨hlen, h1⟩, forall_mem_cons.mpr ⟨?_, h2⟩⟩
        intro f hf
        rw [hn] at hf
        cases hf
      case h_2 f hn =>
        split at h
        case isFalse => cases h
        case isTrue hv =>
          rw [Option.map_eq_some_iff] at h
          obtain ⟨rest, hrest, rfl⟩ := h
          obtain ⟨h1, h2⟩ := ih hrest
          refine ⟨forall_mem_cons.mpr ⟨hlen, h1⟩, forall_mem_cons.mpr ⟨?_, ?_⟩⟩
          · intro g hg
            rw [hn] at hg
            cases hg
            exact ⟨hv, mem_cons_self⟩
          · exact fun m hm g hg => ⟨(h2 m hm g hg).1, mem_cons_of_mem _ (h2 m hm g hg).2⟩

theorem collect_isSome (hlen : ∀ n ∈ ns, (pathOf directory n).length < tempSize)
    (hv : ∀ n ∈ ns, ∀ f, dir n = some f → Valid n.index f) :
    ∃ out, collect directory dir ns = some out := by
  induction ns with
  | nil => exact ⟨[], rfl⟩
  | cons n ns ih =>
    obtain ⟨out, hout⟩ := ih (fun m hm => hlen m (mem_cons_of_mem _ hm))
      fun m hm => hv m (mem_cons_of_mem _ hm)
    rw [collect, if_neg (Nat.not_le.mpr (hlen n mem_cons_self))]
    cases hn : dir n with
    | none => exact ⟨out, hout⟩
    | some f =>
      refine ⟨n :: out, ?_⟩
      rw [hout]
      exact if_pos (hv n mem_cons_self f hn)

theorem unlinkAll_apply (dir : Dir) (ns : List Name) (n : Name) :
    unlinkAll dir ns n = if n ∈ ns then none else dir n := by
  induction ns generalizing dir with
  | nil => simp [unlinkAll]
  | cons m ns ih =>
    have hstep : unlinkAll dir (m :: ns) = unlinkAll (update dir m none) ns := rfl
    rw [hstep, ih, update_apply]
    by_cases h1 : n ∈ ns
    · simp [h1]
    · by_cases h2 : n = m <;> simp [h1]

/-- Removal works exactly where every file of the store is valid, and then leaves none. -/
theorem remove_iff (directory : List Char) (dir : Dir) :
    (∃ dir', remove directory dir = some dir' ∧ ∀ n ∈ names, dir' n = none) ↔
      (∀ n ∈ names, (pathOf directory n).length < tempSize) ∧
        ∀ n ∈ names, ∀ f, dir n = some f → Valid n.index f := by
  constructor
  · rintro ⟨dir', h, _⟩
    rw [remove, Option.map_eq_some_iff] at h
    obtain ⟨out, hout, _⟩ := h
    obtain ⟨hlen, hv⟩ := collect_some hout
    exact ⟨hlen, fun n hn f hf => (hv n hn f hf).1⟩
  · rintro ⟨hlen, hv⟩
    obtain ⟨out, hout⟩ := collect_isSome hlen hv
    refine ⟨unlinkAll dir out, by rw [remove, hout]; rfl, ?_⟩
    intro n hn
    rw [unlinkAll_apply]
    split
    · rfl
    · rename_i hnot
      cases hd : dir n with
      | none => rfl
      | some f => exact absurd ((collect_some hout).2 n hn f hd).2 hnot

variable {f : File}

theorem remove_apply {dir' : Dir} (h : remove directory dir = some dir')
    {n : Name} (hf : dir' n = some f) : dir n = some f := by
  rw [remove, Option.map_eq_some_iff] at h
  obtain ⟨out, _, rfl⟩ := h
  rw [unlinkAll_apply] at hf
  split at hf
  · cases hf
  · exact hf

/-! Opening. -/

/-- Every segment that is in place is complete. -/
def InPlace (dir : Dir) : Prop := ∀ i f, dir ⟨i, false⟩ = some f → Complete i f

def Opening.TempOk (s : Opening) : Prop :=
  match s.stage with
  | .openTemp | .header _ => ∃ f, s.dir s.temp = some f ∧ f.size ≤ s.size + headerSize
  | .tail n => n < s.size ∧
      ∃ f, s.dir s.temp = some f ∧ f.head = header s.index s.size ∧ f.size ≤ s.size + headerSize
  | .sync | .close | .rename =>
      ∃ f, s.dir s.temp = some f ∧ f.head = header s.index s.size ∧ f.size ≤ s.size + headerSize
  | _ => True

def Stage.Done : Stage → Prop
  | .done _ => True
  | _ => False

structure Opening.Inv (s : Opening) : Prop where
  placed : InPlace s.dir
  temp : s.TempOk
  left : s.stage.Done ∨ 0 < s.left

variable {s : Opening}

theorem Opening.size_pos (h : 0 < s.left) : 0 < s.size ∧ s.size ≤ segmentSize := by
  have : 0 < segmentSize := by decide
  rw [Opening.size]
  omega

theorem inPlace_temp (h : InPlace dir) (i : Nat) (f : Option File) :
    InPlace (update dir ⟨i, true⟩ f) := by
  intro j g hg
  rw [update_of_ne (by simp)] at hg
  exact h j g hg

theorem head_writeHeader (h : headerSize ≤ n) :
    (f.writeHeader index size n).head = header index size := by
  have hdrop : f.head.drop (min n headerSize) = [] := by
    rw [drop_eq_nil_iff, f.fits]
    omega
  change (header index size).take n ++ f.head.drop (min n headerSize) = header index size
  rw [hdrop, append_nil, take_of_length_le (by rw [length_header]; exact h)]

theorem head_grow (h : f.head.length = headerSize) : (f.grow n).head = f.head := by
  have hzero : min n headerSize - f.head.length = 0 := by omega
  change f.head ++ List.replicate (min n headerSize - f.head.length) '\x00' = f.head
  rw [hzero, replicate_zero, append_nil]

theorem Opening.Inv.next (h : InPlace s.dir) : s.next.Inv := by
  rw [Opening.next]
  by_cases hz : s.left - s.size = 0
  · rw [if_pos hz]
    exact ⟨h, trivial, .inl trivial⟩
  · rw [if_neg hz]
    exact ⟨h, trivial, .inr (Nat.pos_of_ne_zero hz)⟩

/-- The end of an opening asks nothing of the temporary file. -/
theorem Opening.Inv.stop (h : InPlace s.dir) (ok : Bool) : (s.at (.done ok)).Inv :=
  ⟨h, trivial, .inl trivial⟩

variable {works native : Bool} {stage : Stage}

theorem Opening.Inv.go (h : InPlace s.dir)
    (hleft : 0 < s.left) (hstage : (s.at stage).TempOk) :
    (s.at (if works then stage else .done false)).Inv := by
  cases works with
  | false => exact .stop h false
  | true => exact ⟨h, hstage, .inr hleft⟩

theorem Opening.Inv.keep (h : InPlace s.dir)
    (hleft : 0 < s.left) (hstage : (s.at stage).TempOk) :
    (s.at (if works then stage else .unlink)).Inv := by
  cases works with
  | false => exact ⟨h, trivial, .inr hleft⟩
  | true => exact ⟨h, hstage, .inr hleft⟩

theorem Opening.Inv.header (h : InPlace s.dir) (hleft : 0 < s.left)
    (hf : s.dir s.temp = some f) (hsize : f.size ≤ s.size + headerSize) :
    ((s.set s.temp ((s.dir s.temp).map (·.writeHeader s.index s.size n))).at
      (if headerSize ≤ n then .tail 0 else .header n)).Inv := by
  have hfile : update s.dir s.temp ((s.dir s.temp).map (·.writeHeader s.index s.size n)) s.temp =
      some (f.writeHeader s.index s.size n) := by
    rw [update_self, hf]
    rfl
  have hbound : (f.writeHeader s.index s.size n).size ≤ s.size + headerSize := by
    change max f.size (min n headerSize) ≤ _
    omega
  refine ⟨inPlace_temp h _ _, ?_, .inr hleft⟩
  split
  case isTrue hn => exact ⟨(size_pos hleft).1, _, hfile, head_writeHeader hn, hbound⟩
  case isFalse => exact ⟨_, hfile, hbound⟩

theorem Opening.Inv.tail (h : InPlace s.dir) (hleft : 0 < s.left)
    (hn : n ≤ s.size) (hf : s.dir s.temp = some f) (hhead : f.head = StoreOpen.header s.index s.size)
    (hsize : f.size ≤ s.size + headerSize) :
    ((s.set s.temp ((s.dir s.temp).map (·.grow (headerSize + n)))).at
      (if s.size ≤ n then .sync else .tail n)).Inv := by
  have hfile : update s.dir s.temp ((s.dir s.temp).map (·.grow (headerSize + n))) s.temp =
      some (f.grow (headerSize + n)) := by
    rw [update_self, hf]
    rfl
  have hgrow : (f.grow (headerSize + n)).head = StoreOpen.header s.index s.size :=
    (head_grow (by rw [hhead, length_header])).trans hhead
  have hbound : (f.grow (headerSize + n)).size ≤ s.size + headerSize := by
    change max f.size (headerSize + n) ≤ _
    omega
  refine ⟨inPlace_temp h _ _, ?_, .inr hleft⟩
  split
  case isTrue => exact ⟨_, hfile, hgrow, hbound⟩
  case isFalse hlt => exact ⟨Nat.lt_of_not_le hlt, _, hfile, hgrow, hbound⟩

theorem Opening.Inv.rename (h : InPlace s.dir) (hleft : 0 < s.left)
    (hf : s.dir s.temp = some f) (hhead : f.head = StoreOpen.header s.index s.size)
    (hsize : f.size ≤ s.size + headerSize) :
    (((s.set s.path (s.dir s.temp)).set s.temp none).at .reopen).Inv := by
  refine ⟨inPlace_temp (fun i g hg => ?_) _ _, trivial, .inr hleft⟩
  by_cases hi : i = s.index
  · subst hi
    have hself : update s.dir s.path (s.dir s.temp) s.path = some g := hg
    rw [update_self, hf] at hself
    cases hself
    exact ⟨s.size, (size_pos hleft).1, (size_pos hleft).2, hhead, hsize⟩
  · have hother : (s.set s.path (s.dir s.temp)).dir ⟨i, false⟩ = s.dir ⟨i, false⟩ :=
      update_of_ne (by simpa [Opening.path] using hi) _ _
    exact h i g (hother ▸ hg)

theorem Opening.Inv.step {c : Call} (h : s.Inv) : (s.step native directory c).Inv := by
  obtain ⟨dir, index, left, stage⟩ := s
  obtain ⟨hplace, htemp, hleft⟩ := h
  cases stage
  case done => exact ⟨hplace, htemp, hleft⟩
  all_goals
    replace hleft := hleft.resolve_left id
    rw [Opening.step]
    dsimp only
  case mkdir => exact .go hplace hleft trivial
  case survey =>
    split
    · exact .stop hplace false
    · exact .go hplace hleft trivial
  case opening =>
    split
    · split
      · exact .next hplace
      · exact .stop hplace false
    · exact .go hplace hleft trivial
  case space =>
    refine .go hplace hleft ?_
    cases native <;> trivial
  case statTemp =>
    split
    · exact ⟨hplace, trivial, .inr hleft⟩
    · exact .stop hplace false
  case create =>
    split
    · split
      · exact ⟨inPlace_temp hplace _ _, ⟨_, update_self .., Nat.le_refl _⟩, .inr hleft⟩
      · exact ⟨hplace, trivial, .inr hleft⟩
    · split
      · exact ⟨inPlace_temp hplace _ _, ⟨_, update_self .., Nat.zero_le _⟩, .inr hleft⟩
      · exact .stop hplace false
  case openTemp => exact .keep hplace hleft htemp
  case header n =>
    obtain ⟨f, hf, hsize⟩ := htemp
    split
    · exact .header hplace hleft hf hsize
    · exact ⟨hplace, trivial, .inr hleft⟩
  case tail n =>
    obtain ⟨hn, f, hf, hhead, hsize⟩ := htemp
    split
    · refine .tail hplace hleft ?_ hf hhead hsize
      split
      · exact Nat.le_refl _
      · rw [Call.written]
        omega
    · exact ⟨hplace, trivial, .inr hleft⟩
  case sync => exact .keep hplace hleft htemp
  case close => exact .keep hplace hleft htemp
  case rename =>
    obtain ⟨f, hf, hhead, hsize⟩ := htemp
    split
    · exact .rename hplace hleft hf hhead hsize
    · exact ⟨hplace, trivial, .inr hleft⟩
  case reopen =>
    split
    · exact .next hplace
    · exact .stop hplace false
  case unlink =>
    split
    · exact .stop (inPlace_temp hplace _ _) false
    · exact .stop hplace false

theorem Opening.Inv.start (h : InPlace dir) (megabytes : Nat) :
    (Opening.start dir megabytes).Inv := by
  rw [Opening.start]
  split
  · exact ⟨h, trivial, .inl trivial⟩
  · exact ⟨h, trivial, .inr (by dsimp only; omega)⟩

theorem inPlace_play {session : Session}
    (h : InPlace dir) : InPlace (session.play native directory dir) := by
  cases session with
  | «open» megabytes calls =>
    exact (run_invariant (P := Opening.Inv) (fun _ _ hs => hs.step) (.start h megabytes) calls).placed
  | remove =>
    rw [Session.play]
    cases hr : StoreOpen.remove directory dir with
    | none => exact h
    | some dir' => exact fun i f hf => h i f (remove_apply hr hf)

theorem inPlace_reached (native : Bool) (directory : List Char) (sessions : List Session) :
    InPlace (reached native directory sessions) :=
  run_invariant (P := InPlace) (fun _ _ h => inPlace_play h) (fun _ _ hf => by cases hf) sessions

theorem mem_names {n : Name} : n ∈ names ↔ n.index < storeFiles := by
  obtain ⟨index, creating⟩ := n
  simp only [names, mem_map, mem_range, Name.mk.injEq]
  constructor
  · rintro ⟨i, hi, rfl, _⟩
    omega
  · intro h
    cases creating
    · exact ⟨index * 2, by omega, by omega, by simp⟩
    · exact ⟨index * 2 + 1, by omega, by omega, by simp⟩

/-- Wherever openings of a store are stopped, its removal works and leaves nothing behind exactly
where the names fit their buffer and every file that was still being created has its header. -/
theorem removal_after_stop_iff (native : Bool) (directory : List Char) (sessions : List Session) :
    (∃ dir, remove directory (reached native directory sessions) = some dir ∧
      ∀ n ∈ names, dir n = none) ↔
    (∀ n ∈ names, (pathOf directory n).length < tempSize) ∧
      ∀ i < storeFiles, ∀ f, reached native directory sessions ⟨i, true⟩ = some f → Complete i f := by
  rw [remove_iff]
  refine and_congr_right fun _ => ?_
  have hindex {n : Name} (hn : n ∈ names) : n.index < 2 ^ 32 := by
    have := mem_names.mp hn
    simp only [storeFiles] at this
    omega
  constructor
  · intro h i hi f hf
    have hn : (⟨i, true⟩ : Name) ∈ names := mem_names.mpr hi
    exact (valid_iff (hindex hn) f).mp (h _ hn f hf)
  · intro h n hn f hf
    refine (valid_iff (hindex hn) f).mpr ?_
    obtain ⟨i, creating⟩ := n
    cases creating with
    | false => exact inPlace_reached native directory sessions i f hf
    | true => exact h i (mem_names.mp hn) f hf

/-- An opening that is stopped right after it has created its first file. -/
def stoppedAtCreate : List Session := [.open 1 (List.replicate 6 ⟨true, 0, []⟩)]

/-- The file that is left has no header yet, and the removal refuses it. -/
theorem stop_before_header_blocks_removal : remove [] (reached true [] stoppedAtCreate) = none :=
  Option.isNone_iff_eq_none.mp (by decide +kernel)

end Autorun.Swap.StoreOpen
