import Autorun.Text.Catalog

namespace Autorun.Text.Launcher
open Lib List

/-! Blanks. -/

theorem trim_append {l w : List Char} (h : ∀ c ∈ w, endBlank c) : trim (l ++ w) = trim l := by
  rw [trim, trim, dropWhile_append]
  split
  case isTrue hl =>
    rw [List.isEmpty_iff.mp hl, rdropWhile_nil]
    exact rdropWhile_eq_nil_iff.mpr fun c hc => h c ((dropWhile_sublist _).mem hc)
  case isFalse => exact rdropWhile_append_of_all h

theorem trim_cons {c : Char} (h : startBlank c = false) (l : List Char) :
    trim (c :: l) = (c :: l).rdropWhile endBlank := by
  rw [trim, dropWhile_cons_of_neg (by simp [h])]

theorem trim_rdropWhile (v : List Char) : trim (v.rdropWhile endBlank) = trim v := by
  obtain ⟨w, hw, hv⟩ := exists_rdropWhile_append endBlank v
  conv_rhs => rw [hv]
  exact (trim_append hw).symm

/-! What the loader makes of a whole line. -/

theorem readLine_line {l : List Char} (hzero : '\x00' ∉ l) :
    readLine (l ++ ['\n'], false) = takeApart (trim l) := by
  have hall : cstr (l ++ ['\n']) = l ++ ['\n'] := by
    rw [cstr, takeWhile_eq_self_iff]
    intro c hc
    rcases mem_append.mp hc with hc | hc
    · simpa using fun he : c = '\x00' => hzero (he ▸ hc)
    · simp [mem_singleton.mp hc]
  rw [readLine, hall]
  simp only [mem_append, mem_singleton, or_true, not_true_eq_false, false_and, ↓reduceIte]
  rw [trim_append (by simp [endBlank])]

/-- A key that neither starts another kind of line nor has blanks at its ends. -/
structure IsKey (key : List Char) : Prop where
  first : ∃ c rest, key = c :: rest ∧ startBlank c = false ∧ c ≠ '#' ∧ c ≠ ';' ∧ c ≠ '['
  equals : '=' ∉ key
  trimmed : trim key = key
  break_ : '\n' ∉ key
  zero : '\x00' ∉ key

theorem takeApart_pair {key value : List Char} (hkey : IsKey key) :
    takeApart (key ++ '=' :: value) = .pair key (trim value) := by
  obtain ⟨c, rest, he, _, hhash, hsemi, hbracket⟩ := hkey.first
  have hne : ∀ x ∈ key, x ≠ '=' := fun x hx h => hkey.equals (h ▸ hx)
  have htake : (key ++ '=' :: value).takeWhile (· ≠ '=') = key := by
    rw [takeWhile_append_of_pos (by simpa using hne)]
    simp
  have hdrop : (key ++ '=' :: value).dropWhile (· ≠ '=') = '=' :: value := by
    rw [dropWhile_append_of_pos (by simpa using hne)]
    simp
  have hhead : (key ++ '=' :: value).head? = some c := by rw [he]; rfl
  rw [takeApart, hhead, htake, hdrop, hkey.trimmed]
  simp

theorem takeApart_trim {key value : List Char} (hkey : IsKey key) :
    takeApart (trim (key ++ '=' :: value)) = .pair key (trim value) := by
  have htrim : trim (key ++ '=' :: value) = key ++ '=' :: value.rdropWhile endBlank := by
    obtain ⟨c, rest, he, hc, _⟩ := hkey.first
    have hvalue : ('=' :: value).rdropWhile endBlank = '=' :: value.rdropWhile endBlank :=
      rdropWhile_cons_of_neg (by decide) value
    rw [he, cons_append, trim_cons hc, ← cons_append,
      rdropWhile_append_of_ne (by rw [hvalue]; simp), hvalue]
  rw [htrim, takeApart_pair hkey, trim_rdropWhile]

/-! Encoded values. -/

/-- A value without the blanks at its ends. -/
def strip (v : List Char) : List Char := (v.dropWhile startBlank).rdropWhile startBlank

theorem encodeChar_of {c : Char} (h : c ≠ '%' ∧ c ≠ '\r' ∧ c ≠ '\n' ∧ c ≠ '=' ∧ c ≠ '[' ∧ c ≠ ']') :
    encodeChar c = [c] := by
  unfold encodeChar
  split <;> simp_all

theorem encode_cons (c : Char) (v : List Char) : encode (c :: v) = encodeChar c ++ encode v :=
  flatMap_cons

theorem encode_append (u v : List Char) : encode (u ++ v) = encode u ++ encode v :=
  flatMap_append

inductive Encoded (c : Char) : Prop
  | escape : encodeChar c = ['%', a, b] → hexValue a = some v → hexValue b = some w →
      Char.ofNat (16 * v + w) = c → endBlank b = false → startBlank c = false → Encoded c
  | plain : encodeChar c = [c] → c ≠ '%' → c ≠ '\r' → c ≠ '\n' → c ≠ '=' → Encoded c

theorem encoded (c : Char) : Encoded c := by
  by_cases h : c = '%' ∨ c = '\r' ∨ c = '\n' ∨ c = '=' ∨ c = '[' ∨ c = ']'
  case pos =>
    rcases h with rfl | rfl | rfl | rfl | rfl | rfl <;>
      exact .escape rfl rfl rfl (by decide) (by decide) (by decide)
  case neg =>
    simp only [not_or] at h
    exact .plain (encodeChar_of h) h.1 h.2.1 h.2.2.1 h.2.2.2.1

theorem dropWhile_encode (v : List Char) :
    (encode v).dropWhile startBlank = encode (v.dropWhile startBlank) := by
  induction v with
  | nil => rfl
  | cons c v ih =>
    rw [encode_cons]
    cases encoded c with
    | escape he _ _ _ _ hc =>
      rw [dropWhile_cons_of_neg (by simp [hc]), encode_cons, he]
      rfl
    | plain he =>
      rw [he, singleton_append, dropWhile_cons, dropWhile_cons]
      split
      · exact ih
      · rw [encode_cons, he, singleton_append]

theorem rdropWhile_encode (v : List Char) :
    (encode v).rdropWhile endBlank = encode (v.rdropWhile startBlank) := by
  induction v using List.reverseRecOn with
  | nil => rfl
  | append_singleton v c ih =>
    have hlast : encode [c] = encodeChar c := by simp [encode]
    rw [encode_append, hlast]
    cases encoded c with
    | @escape a b _ _ he _ _ _ hb hc =>
      have hsplit : encode v ++ ['%', a, b] = encode v ++ ['%', a] ++ [b] := by simp
      rw [rdropWhile_concat_neg _ _ _ (by simp [hc]), encode_append, hlast, he, hsplit,
        rdropWhile_concat_neg _ _ _ (by simp [hb])]
    | plain he _ hr hn _ =>
      rw [he, rdropWhile_concat, rdropWhile_concat]
      have hiff : endBlank c = startBlank c := by simp [endBlank, startBlank, hr, hn]
      rw [hiff]
      split
      · exact ih
      · rw [encode_append, hlast, he]

theorem trim_encode (v : List Char) : trim (encode v) = encode (strip v) := by
  rw [trim, dropWhile_encode, rdropWhile_encode]
  rfl

theorem mem_encode_break (v : List Char) : '\n' ∉ encode v := by
  induction v with
  | nil => simp [encode]
  | cons c v ih =>
    rw [encode_cons]
    cases encoded c with
    | @escape a b _ _ he ha hb _ _ _ =>
      have hne {x y : Char} {n : Nat} (hx : hexValue x = some n) (hy : hexValue y = none) : y ≠ x :=
        fun h => by rw [h, hx] at hy; cases hy
      rw [he]
      simp [ih, hne ha (y := '\n') rfl, hne hb (y := '\n') rfl]
    | plain he _ hr hn _ =>
      rw [he]
      simp [ih, Ne.symm hn]

theorem mem_encode_zero {v : List Char} (h : '\x00' ∉ v) : '\x00' ∉ encode v := by
  induction v with
  | nil => simp [encode]
  | cons c v ih =>
    simp only [mem_cons, not_or] at h
    rw [encode_cons]
    cases encoded c with
    | @escape a b _ _ he ha hb _ _ _ =>
      have hne {x : Char} {n : Nat} (hx : hexValue x = some n) : '\x00' ≠ x :=
        fun e => by rw [← e] at hx; cases hx
      rw [he]
      simp [ih h.2, hne ha, hne hb]
    | plain he =>
      rw [he]
      simp [ih h.2, h.1]

theorem not_space_of_hexValue {a : Char} {v : Nat} (h : hexValue a = some v) :
    isspace a = false ∧ a ≠ '+' ∧ a ≠ '-' ∧ a ≠ '\x00' := by
  have hne {b : Char} (hb : hexValue b = none) : a ≠ b := fun e => by rw [e, hb] at h; cases h
  refine ⟨?_, hne rfl, hne rfl, hne rfl⟩
  have h1 := hne (b := ' ') rfl
  have h2 := hne (b := '\t') rfl
  have h3 := hne (b := '\n') rfl
  have h4 := hne (b := '\x0b') rfl
  have h5 := hne (b := '\x0c') rfl
  have h6 := hne (b := '\r') rfl
  simp [isspace, h1, h2, h3, h4, h5, h6]

theorem scanHexByte_two {a b : Char} {v w : Nat} (ha : hexValue a = some v) (hb : hexValue b = some w)
    (t : List Char) : scanHexByte (a :: b :: t) = some (16 * v + w) := by
  obtain ⟨hs, hp, hm, _⟩ := not_space_of_hexValue ha
  rw [scanHexByte, dropWhile_cons_of_neg (by simp [hs])]
  simp [hp, hm, ha, hb]

/-- A line break, which is written but not read. -/
def Breaks (v : List Char) : Prop := '\r' ∈ v ∨ '\n' ∈ v

instance (v : List Char) : Decidable (Breaks v) := inferInstanceAs (Decidable (_ ∨ _))

theorem copyLoop_cons {room : Nat} {c : Char} {mem : List Char} (h0 : c ≠ '\x00') (h : c ≠ '%') :
    copyLoop (room + 1) (c :: mem) =
      if refused c then .nothing else (copyLoop room mem).map (c :: ·) := by
  simp [copyLoop, h0, h]

theorem copyLoop_escape {room v : Nat} {mem : List Char} (h : scanHexByte (cstr mem) = some v) :
    copyLoop (room + 1) ('%' :: mem) =
      if refused (Char.ofNat v) then .nothing
      else (copyLoop room (mem.drop 2)).map (Char.ofNat v :: ·) := by
  simp [copyLoop, h]

theorem copyLoop_nil (room : Nat) : copyLoop room [] = .past := by cases room <;> rfl

theorem copyLoop_full {c : Char} (h0 : c ≠ '\x00') (mem : List Char) :
    copyLoop 0 (c :: mem) = .nothing := by
  simp only [copyLoop, h0, ↓reduceIte]
  split
  · split <;> rfl
  · rfl

theorem copyLoop_noscan {mem : List Char} (h : scanHexByte (cstr mem) = none) (room : Nat) :
    copyLoop room ('%' :: mem) = .nothing := by
  cases room <;> simp [copyLoop, h]

/-- One character of an encoded value is read as that character, or refused. -/
theorem copyLoop_encodeChar {room : Nat} {c : Char} (h0 : c ≠ '\x00') (mem : List Char) :
    copyLoop (room + 1) (encodeChar c ++ mem) =
      if refused c then .nothing else (copyLoop room mem).map (c :: ·) := by
  cases encoded c with
  | @escape a b _ _ he ha hb hc _ _ =>
    have hcstr : cstr (a :: b :: mem) = a :: b :: cstr mem := by
      simp [cstr, (not_space_of_hexValue ha).2.2.2, (not_space_of_hexValue hb).2.2.2]
    have hscan := scanHexByte_two ha hb (cstr mem)
    rw [← hcstr] at hscan
    rw [he]
    change copyLoop (room + 1) ('%' :: (a :: b :: mem)) = _
    rw [copyLoop_escape hscan, hc]
    rfl
  | plain he hp => rw [he, singleton_append, copyLoop_cons h0 hp]

theorem copyLoop_encode {room : Nat} {u : List Char} (hlen : u.length ≤ room) (h0 : '\x00' ∉ u)
    (behind : List Char) :
    copyLoop room (encode u ++ '\x00' :: behind) = if Breaks u then .nothing else .found u := by
  induction u generalizing room with
  | nil => cases room <;> simp [encode, copyLoop, Breaks]
  | cons c u ih =>
    obtain ⟨n, rfl⟩ := Nat.exists_eq_add_one_of_ne_zero (Nat.ne_zero_of_lt hlen)
    simp only [mem_cons, not_or] at h0
    rw [encode_cons, append_assoc, copyLoop_encodeChar (Ne.symm h0.1),
      ih (by simpa using hlen) h0.2]
    by_cases hc : c = '\r' ∨ c = '\n'
    · have hb : Breaks (c :: u) := by
        rcases hc with rfl | rfl <;> simp [Breaks]
      rw [if_pos hb, if_pos]
      rcases hc with rfl | rfl <;> rfl
    · have hb : Breaks (c :: u) ↔ Breaks u := by
        simp only [not_or] at hc
        simp [Breaks, Ne.symm hc.1, Ne.symm hc.2]
      have hrefused : refused c = false := by
        simp only [not_or] at hc
        simp [refused, Ne.symm h0.1, hc.1, hc.2]
      simp only [hrefused, Bool.false_eq_true, ↓reduceIte, hb]
      split <;> rfl

end Autorun.Text.Launcher
