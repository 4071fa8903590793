import Mathlib.Data.List.Infix

namespace Autorun.Lib

/-- What one place of a mask stands for: any run, any one symbol, or one that is accepted. -/
inductive Glob (α : Type) where
  | run
  | one
  | this (accept : α → Prop)

namespace Glob

/-- The text can be cut into pieces, one for each place of the mask. -/
inductive Covers : List (Glob α) → List α → Prop
  | nil : Covers [] []
  | run (h : Covers mask text) : Covers (.run :: mask) (front ++ text)
  | one (h : Covers mask text) : Covers (.one :: mask) (a :: text)
  | this (ha : accept a) (h : Covers mask text) : Covers (.this accept :: mask) (a :: text)

theorem covers_nil : Covers [] text ↔ text = [] := by
  constructor
  · rintro ⟨⟩
    rfl
  · rintro rfl
    exact .nil

theorem covers_run : Covers (.run :: mask) text ↔ ∃ rest, rest <:+ text ∧ Covers mask rest := by
  constructor
  · rintro ⟨⟩
    exact ⟨_, List.suffix_append _ _, by assumption⟩
  · rintro ⟨rest, ⟨front, rfl⟩, h⟩
    exact .run h

theorem covers_last : Covers [.run] text :=
  covers_run.mpr ⟨[], List.nil_suffix, .nil⟩

theorem covers_run_run : Covers (.run :: .run :: mask) text ↔ Covers (.run :: mask) text := by
  simp only [covers_run]
  constructor
  · rintro ⟨_, h1, rest, h2, h⟩
    exact ⟨rest, h2.trans h1, h⟩
  · rintro ⟨rest, h1, h⟩
    exact ⟨text, List.suffix_rfl, rest, h1, h⟩

theorem covers_run_cons :
    Covers (.run :: mask) (a :: text) ↔ Covers mask (a :: text) ∨ Covers (.run :: mask) text := by
  simp only [covers_run, List.suffix_cons_iff]
  constructor
  · rintro ⟨rest, rfl | h, hrest⟩
    · exact .inl hrest
    · exact .inr ⟨rest, h, hrest⟩
  · rintro (h | ⟨rest, hsuffix, h⟩)
    · exact ⟨_, .inl rfl, h⟩
    · exact ⟨rest, .inr hsuffix, h⟩

theorem not_covers_one_nil : ¬ Covers (.one :: mask) [] := nofun

theorem not_covers_this_nil : ¬ Covers (.this accept :: mask) [] := nofun

theorem covers_one_cons : Covers (.one :: mask) (a :: text) ↔ Covers mask text :=
  ⟨fun h => by cases h; assumption, .one⟩

theorem covers_this_cons :
    Covers (.this accept :: mask) (a :: text) ↔ accept a ∧ Covers mask text :=
  ⟨fun h => by cases h; constructor <;> assumption, fun h => .this h.1 h.2⟩

/-- Only a run can stand for the symbol. -/
def Rejects (a : α) : Glob α → Prop
  | .run => True
  | .one => False
  | .this accept => ¬ accept a

theorem covers_run_skip_one (hskip : ∀ g ∈ mask, Rejects a g) (h : Covers (.run :: mask) (a :: text)) :
    Covers (.run :: mask) text := by
  induction mask with
  | nil => exact covers_last
  | cons g mask ih =>
    obtain ⟨hg, hrest⟩ := List.forall_mem_cons.mp hskip
    rcases covers_run_cons.mp h with h | h
    · cases g with
      | run => exact covers_run_run.mpr (ih hrest h)
      | one => exact hg.elim
      | this accept => exact absurd (covers_this_cons.mp h).1 hg
    · exact h

/-- Symbols that no place but a run stands for are part of the run before them. -/
theorem covers_run_skip (hskip : ∀ a ∈ skip, ∀ g ∈ mask, Rejects a g) :
    Covers (.run :: mask) (skip ++ text) ↔ Covers (.run :: mask) text := by
  constructor
  · intro h
    induction skip with
    | nil => exact h
    | cons a skip ih =>
      obtain ⟨ha, hrest⟩ := List.forall_mem_cons.mp hskip
      exact ih hrest (covers_run_skip_one ha h)
  · intro h
    obtain ⟨rest, hsuffix, hrest⟩ := covers_run.mp h
    exact covers_run.mpr ⟨rest, hsuffix.trans (List.suffix_append _ _), hrest⟩

end Glob

end Autorun.Lib
