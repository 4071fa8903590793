import Mathlib.Data.List.TakeWhile
import Autorun.Lib.Glob
import Autorun.Server.DirMask

namespace Autorun.Server.DirMask

open Lib Glob List

/-- What a byte of the converted mask stands for. -/
def place (ch : UInt8) : Glob UInt8 :=
  if isRun ch then .run
  else if isOne ch then .one
  else .this fun c => asciiLower ch = asciiLower c

theorem wildcardMatchTail_iff :
    wildcardMatchTail mask name = true ↔ Covers (mask.map place) name := by
  induction mask generalizing name with
  | nil => simp [wildcardMatchTail, covers_nil]
  | cons ch mask ih =>
    cases hrun : isRun ch with
    | true =>
      cases mask with
      | nil => simp [wildcardMatchTail, place, hrun, covers_last]
      | cons next mask =>
        cases hnext : isRun next with
        | true =>
          have hskip : wildcardMatchTail (ch :: next :: mask) name = wildcardMatchTail (next :: mask) name := by
            simp [wildcardMatchTail, hrun, hnext]
          rw [hskip, ih]
          simp [place, hrun, hnext, covers_run_run]
        | false =>
          have hloop : wildcardMatchTail (ch :: next :: mask) name
              = name.tails.any (wildcardMatchTail (next :: mask)) := by
            simp [wildcardMatchTail, hrun, hnext]
          simp only [hloop, any_eq_true, mem_tails, ih]
          simp [place, hrun, covers_run]
    | false =>
      cases name with
      | nil =>
        simp only [wildcardMatchTail, hrun, Bool.false_eq_true, if_false, false_iff]
        rintro h
        cases hone : isOne ch <;> simp [place, hrun, hone] at h <;> cases h
      | cons c name =>
        cases hone : isOne ch with
        | true => simp [wildcardMatchTail, place, hrun, hone, covers_one_cons, ih]
        | false => simp [wildcardMatchTail, place, hrun, hone, covers_this_cons, ih]

/-- The bytes of a UTF-16 string. -/
def utf16Bytes (units : List UInt16) : List UInt8 :=
  units.flatMap fun u : UInt16 => [u.toUInt8, (u >>> 8).toUInt8]

/-- What a unit of a mask stands for: `*` and `<` any run of bytes, `?`, `>`, `"` and every unit
beyond ASCII any one byte. -/
def unitPlace (u : UInt16) : Glob UInt8 :=
  if u = 42 ∨ u = 60 then .run
  else if u = 63 ∨ u = 62 ∨ u = 34 ∨ 0x80 ≤ u then .one
  else .this fun c => asciiLower u.toUInt8 = asciiLower c

/-- The byte a unit is kept as. -/
def narrow (u : UInt16) : UInt8 := if u < 0x80 then u.toUInt8 else 63

theorem unitByte_eq (u : UInt16) : unitByte u.toUInt8 (u >>> 8).toUInt8 = narrow u := by
  have hu := u.toNat_lt
  have hsum : u.toUInt8.toNat + 256 * (u >>> 8).toUInt8.toNat = u.toNat := by
    simp [Nat.shiftRight_eq_div_pow]
    omega
  simp only [unitByte, hsum, narrow, UInt16.lt_iff_toNat_lt]
  rfl

variable (units : List UInt16)

theorem unitBytes_utf16Bytes : unitBytes (utf16Bytes units) = units.map narrow := by
  induction units with
  | nil => rfl
  | cons u units ih => simpa [utf16Bytes, unitBytes, unitByte_eq] using ih

theorem narrow_eq_iff {u : UInt16} {c : UInt8} (hc : c < 0x80) (hq : c ≠ 63) :
    narrow u = c ↔ u = c.toUInt16 := by
  unfold narrow
  split
  · rename_i hu
    rw [← UInt8.toNat_inj, ← UInt16.toNat_inj]
    simp [UInt16.lt_iff_toNat_lt] at hu ⊢
    omega
  · rename_i hu
    constructor
    · intro h
      exact absurd h.symm hq
    · rintro rfl
      simp [UInt16.lt_iff_toNat_lt, UInt8.lt_iff_toNat_lt] at hu hc
      omega

theorem place_narrow (u : UInt16) : place (narrow u) = unitPlace u := by
  by_cases hu : u < 0x80
  · have h (c : UInt8) : u.toUInt8 = c ↔ u = c.toUInt16 := by
      rw [← UInt8.toNat_inj, ← UInt16.toNat_inj]
      have := c.toNat_lt
      simp [UInt16.lt_iff_toNat_lt] at hu ⊢
      omega
    have hle : ¬ 0x80 ≤ u := UInt16.not_le.mpr hu
    simp [place, narrow, unitPlace, isRun, isOne, h, hu, hle]
  · have hle : 0x80 ≤ u := UInt16.not_lt.mp hu
    have hrun : ¬ (u = 42 ∨ u = 60) := by
      rintro (rfl | rfl) <;> exact hu (by decide)
    simp [place, narrow, unitPlace, isRun, isOne, hu, hle, hrun]

theorem takeWhile_narrow :
    (units.map narrow).takeWhile (· ≠ 0) = (units.takeWhile (· ≠ 0)).map narrow := by
  rw [takeWhile_map]
  congr 2
  funext u
  simp [narrow_eq_iff (c := 0) (by decide) (by decide)]

theorem wildcardMatch_utf16 (name : List UInt8) :
    wildcardMatch (dirMaskFromUtf16 (utf16Bytes units) true) name =
      wildcardMatch (some (units.map narrow)) name := by
  cases units with
  | nil => rfl
  | cons u units =>
    have hlen : (utf16Bytes (u :: units)).length = 2 * (u :: units).length := by
      simp [utf16Bytes]
      omega
    have hodd : ¬ (2 * (u :: units).length) % 2 = 1 := by omega
    simp only [dirMaskFromUtf16, hlen, hodd, unitBytes_utf16Bytes]
    simp

theorem map_narrow_eq {chars : List UInt8} (hchars : ∀ c ∈ chars, c < 0x80 ∧ c ≠ 63) :
    mask.map narrow = chars ↔ mask = chars.map UInt8.toUInt16 := by
  induction chars generalizing mask with
  | nil => simp
  | cons c chars ih =>
    obtain ⟨⟨hc, hq⟩, hrest⟩ := forall_mem_cons.mp hchars
    cases mask with
    | nil => simp
    | cons u mask => simp [narrow_eq_iff hc hq, ih hrest]

theorem wildcardMatch_some (buf name : List UInt8) :
    wildcardMatch (some buf) name = true ↔
      buf.takeWhile (· ≠ 0) ∈ [[], [42], [42, 46, 42]] ∨
      Covers ((buf.takeWhile (· ≠ 0)).map place) name := by
  rw [← wildcardMatchTail_iff]
  simp only [wildcardMatch, Option.map_some]
  generalize buf.takeWhile _ = mask
  by_cases hempty : mask = []
  · simp [hempty]
  · by_cases hall : mask = [42] ∨ mask = [42, 46, 42]
    · simp [hall]
    · simp [hempty, hall]

/-- The mask ends at its first zero unit. It lists everything if it is empty, `*` or `*.*`, and
otherwise is read unit by unit over the bytes of the name. -/
theorem dir_mask_matches_bytes (name : List UInt8) :
    wildcardMatch (dirMaskFromUtf16 (utf16Bytes units) true) name = true ↔
      units.takeWhile (· ≠ 0) ∈ [[], [42], [42, 46, 42]] ∨
      Covers ((units.takeWhile (· ≠ 0)).map unitPlace) name := by
  have hspecial : ∀ chars ∈ [[], [42], [42, 46, 42]],
      ((units.takeWhile (· ≠ 0)).map narrow = chars ↔
        units.takeWhile (· ≠ 0) = chars.map UInt8.toUInt16) := by
    intro chars hchars
    simp only [mem_cons, not_mem_nil, or_false] at hchars
    rcases hchars with rfl | rfl | rfl <;> exact map_narrow_eq (by simp)
  have hplace : place ∘ narrow = unitPlace := funext place_narrow
  rw [wildcardMatch_utf16, wildcardMatch_some, takeWhile_narrow, map_map, hplace]
  simp only [mem_cons, not_mem_nil, or_false] at hspecial ⊢
  rw [hspecial [] (by simp), hspecial [42] (by simp), hspecial [42, 46, 42] (by simp)]
  rfl

/-- A character that is one byte long. -/
def Ascii (c : Char) : Prop := c.toNat < 0x80

instance (c : Char) : Decidable (Ascii c) := inferInstanceAs (Decidable (_ < _))

def byte (c : Char) : UInt8 := UInt8.ofNat c.toNat

def unit (c : Char) : UInt16 := UInt16.ofNat c.toNat

def utf8 (name : List Char) : List UInt8 := name.flatMap String.utf8EncodeChar

/-- A mask over characters: `*` any run, `?` any one, all others without the case of ASCII; and the
wildcards of DOS. -/
def charPlace (c : Char) : Glob Char :=
  if c = '*' ∨ c = '<' then .run
  else if c = '?' ∨ c = '>' ∨ c = '"' then .one
  else .this fun d => c.toLower = d.toLower

/-- The name is listed exactly if the mask matches it character by character, or is one of those
that list everything. -/
def Right (mask name : List Char) : Prop :=
  wildcardMatch (dirMaskFromUtf16 (utf16Bytes (mask.map unit)) true) (utf8 name) = true ↔
    mask ∈ [[], ['*'], ['*', '.', '*']] ∨ Covers (mask.map charPlace) name

theorem utf8_ascii {c : Char} (h : Ascii c) : String.utf8EncodeChar c = [byte c] :=
  String.utf8EncodeChar_eq_singleton (Char.utf8Size_eq_one_iff.mpr (Nat.le_of_lt_succ h))

theorem utf8_wide {c : Char} (h : ¬ Ascii c) :
    ∃ b bs, String.utf8EncodeChar c = b :: bs ∧ ∀ a ∈ b :: bs, 0x80 ≤ a := by
  unfold Ascii at h
  have hall : ∀ a ∈ String.utf8EncodeChar c, 0x80 ≤ a := by
    intro a ha
    simp only [String.utf8EncodeChar, Char.toNat_val] at ha
    rw [UInt8.le_iff_toNat_le]
    grind [UInt8.toNat_ofNat']
  obtain ⟨b, bs, hbytes⟩ := exists_cons_of_length_pos (l := String.utf8EncodeChar c) (by simp [c.utf8Size_pos])
  exact ⟨b, bs, hbytes, hbytes ▸ hall⟩

theorem utf8_cons (c : Char) (name : List Char) : utf8 (c :: name) = String.utf8EncodeChar c ++ utf8 name := rfl

theorem unit_eq_iff {c d : Char} (hc : Ascii c) (hd : Ascii d) : unit c = unit d ↔ c = d := by
  unfold Ascii at hc hd
  rw [← UInt16.toNat_inj, ← Char.toNat_inj, unit, unit, UInt16.toNat_ofNat', UInt16.toNat_ofNat']
  omega

theorem ascii_lower {c : Char} (h : Ascii c) : Ascii c.toLower ∧ asciiLower (byte c) = byte c.toLower := by
  have hall : ∀ n < 0x80, Ascii (Char.ofNat n).toLower ∧
      asciiLower (byte (Char.ofNat n)) = byte (Char.ofNat n).toLower := by decide +kernel
  have hc := hall c.toNat h
  rwa [Char.ofNat_toNat] at hc

/-- Lower case over bytes is lower case over characters. -/
theorem lower_eq_iff {c d : Char} (hc : Ascii c) (hd : Ascii d) :
    asciiLower (byte c) = asciiLower (byte d) ↔ c.toLower = d.toLower := by
  obtain ⟨hc, hcb⟩ := ascii_lower hc
  obtain ⟨hd, hdb⟩ := ascii_lower hd
  unfold Ascii at hc hd
  rw [hcb, hdb, ← UInt8.toNat_inj, ← Char.toNat_inj, byte, byte, UInt8.toNat_ofNat', UInt8.toNat_ofNat']
  omega

theorem lower_ne_wide {c d : Char} (hc : Ascii c) (hd : ¬ Ascii d) : c.toLower ≠ d.toLower := by
  have hwide : d.toLower = d := dif_neg fun h => hd (Nat.lt_of_le_of_lt (UInt32.le_iff_toNat_le.mp h.2) (by decide))
  rw [hwide]
  rintro rfl
  exact hd (ascii_lower hc).1

theorem asciiLower_ne_wide {c : Char} (hc : Ascii c) {b : UInt8} (hb : 0x80 ≤ b) :
    asciiLower (byte c) ≠ asciiLower b := by
  have hlower : asciiLower b = b := if_neg fun h => absurd (UInt8.le_trans hb h.2) (by decide)
  obtain ⟨hlt, heq⟩ := ascii_lower hc
  rw [heq, hlower]
  rintro rfl
  have hle : 128 ≤ c.toLower.toNat % 256 := by simpa [UInt8.le_iff_toNat_le, byte] using hb
  unfold Ascii at hlt
  omega

/-- What a character in ASCII stands for in a mask, over bytes and over characters. -/
theorem place_cases {c : Char} (hc : Ascii c) :
    (unitPlace (unit c) = .run ∧ charPlace c = .run) ∨ (unitPlace (unit c) = .one ∧ charPlace c = .one) ∨
      (unitPlace (unit c) = .this (asciiLower (byte c) = asciiLower ·) ∧
        charPlace c = .this (c.toLower = Char.toLower ·)) := by
  have hiff (d : Char) (hd : Ascii d) : c = d ↔ unit c = unit d := (unit_eq_iff hc hd).symm
  have hbyte : (unit c).toUInt8 = byte c := by
    rw [← UInt8.toNat_inj]
    simp [unit, byte]
  have hle : ¬ 0x80 ≤ unit c := by
    unfold Ascii at hc
    simp [UInt16.le_iff_toNat_le, unit]
    omega
  simp only [unitPlace, charPlace, hbyte, hle, or_false]
  simp only [hiff '*' (by decide), hiff '<' (by decide), hiff '?' (by decide), hiff '>' (by decide),
    hiff '"' (by decide)]
  by_cases hrun : unit c = unit '*' ∨ unit c = unit '<'
  · exact .inl ⟨if_pos hrun, if_pos hrun⟩
  · by_cases hone : unit c = unit '?' ∨ unit c = unit '>' ∨ unit c = unit '"'
    · exact .inr (.inl ⟨(if_neg hrun).trans (if_pos hone), (if_neg hrun).trans (if_pos hone)⟩)
    · exact .inr (.inr ⟨(if_neg hrun).trans (if_neg hone), (if_neg hrun).trans (if_neg hone)⟩)

/-- A run can end only between two characters, if the bytes within them are part of the run. -/
theorem covers_run_utf8 {bytes : List (Glob UInt8)} {chars : List (Glob Char)} {name : List Char}
    (h : ∀ rest, rest <:+ name → (Covers bytes (utf8 rest) ↔ Covers chars rest))
    (hskip : ∀ d ∈ name, Ascii d ∨ ∀ b, 0x80 ≤ b → ∀ g ∈ bytes, Rejects b g) :
    Covers (.run :: bytes) (utf8 name) ↔ Covers (.run :: chars) name := by
  induction name with
  | nil => simpa [covers_run, utf8] using h [] suffix_rfl
  | cons d name ih =>
    obtain ⟨hd, hname⟩ := forall_mem_cons.mp hskip
    have hrest := ih (fun rest hrest => h rest (hrest.trans (suffix_cons d name))) hname
    refine Iff.trans ?_ (Iff.trans (or_congr (h (d :: name) suffix_rfl) hrest) covers_run_cons.symm)
    rw [utf8_cons]
    rcases Decidable.em (Ascii d) with had | had
    · rw [utf8_ascii had]
      exact covers_run_cons
    · obtain ⟨b, bs, hbytes, hwide⟩ := utf8_wide had
      have hskips : ∀ b ∈ bs, ∀ g ∈ bytes, Rejects b g :=
        fun b hb => hd.resolve_left had b (hwide b (mem_cons_of_mem _ hb))
      rw [hbytes, cons_append, covers_run_cons, covers_run_skip hskips]

/-- A mask in ASCII matches the bytes of a name as it matches its characters, if these are ASCII
too or none of its wildcards stands for one symbol. -/
theorem covers_utf8 {mask name : List Char} (hmask : ∀ c ∈ mask, Ascii c)
    (hone : (∀ d ∈ name, Ascii d) ∨ ∀ c ∈ mask, charPlace c ≠ .one) :
    Covers (mask.map fun c => unitPlace (unit c)) (utf8 name) ↔ Covers (mask.map charPlace) name := by
  induction mask generalizing name with
  | nil =>
    cases name with
    | nil => simp [utf8, covers_nil]
    | cons d name => simp [covers_nil, utf8_cons]
  | cons c mask ih =>
    obtain ⟨hc, hmask⟩ := forall_mem_cons.mp hmask
    have htail : ∀ rest, rest <:+ name → (Covers (mask.map fun c => unitPlace (unit c)) (utf8 rest) ↔
        Covers (mask.map charPlace) rest) :=
      fun rest hrest => ih hmask (hone.imp (fun h d hd => h d (hrest.mem hd)) fun h => (forall_mem_cons.mp h).2)
    rw [map_cons, map_cons]
    rcases place_cases hc with ⟨hp, hq⟩ | ⟨hp, hq⟩ | ⟨hp, hq⟩ <;> rw [hp, hq]
    · refine covers_run_utf8 htail fun d hd => hone.imp (fun h => h d hd) fun h b hb g hg => ?_
      obtain ⟨e, he, rfl⟩ := mem_map.mp hg
      rcases place_cases (hmask e he) with ⟨hp, -⟩ | ⟨-, hq⟩ | ⟨hp, -⟩
      · exact hp ▸ trivial
      · exact absurd hq (h e (mem_cons_of_mem _ he))
      · exact hp ▸ asciiLower_ne_wide (hmask e he) hb
    · cases name with
      | nil => exact iff_of_false not_covers_one_nil not_covers_one_nil
      | cons d name =>
        have had : Ascii d := hone.resolve_right (fun h => h c mem_cons_self hq) d mem_cons_self
        rw [utf8_cons, utf8_ascii had, singleton_append, covers_one_cons, covers_one_cons]
        exact htail name (suffix_cons d name)
    · cases name with
      | nil => exact iff_of_false not_covers_this_nil not_covers_this_nil
      | cons d name =>
        rw [utf8_cons, covers_this_cons]
        rcases Decidable.em (Ascii d) with had | had
        · rw [utf8_ascii had, singleton_append, covers_this_cons, lower_eq_iff hc had]
          exact and_congr_right fun _ => htail name (suffix_cons d name)
        · obtain ⟨b, bs, hbytes, hwide⟩ := utf8_wide had
          rw [hbytes, cons_append, covers_this_cons]
          exact iff_of_false (fun h => asciiLower_ne_wide hc (hwide b mem_cons_self) h.1) fun h => lower_ne_wide hc had h.1

theorem covers_self (name : List Char) : Covers (name.map charPlace) name := by
  induction name with
  | nil => exact .nil
  | cons c name ih =>
    rw [map_cons]
    unfold charPlace
    split
    · exact (.run ih : Covers _ ([c] ++ name))
    · split
      · exact .one ih
      · exact .this rfl ih

end Autorun.Server.DirMask
