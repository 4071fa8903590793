import Mathlib.Data.Finite.Prod
import Mathlib.Order.RelClasses
import Mathlib.Logic.Relation

namespace Autorun.Lib

variable {r r' : α → α → Prop}

/-- One element gets another way up, to one that is not below it: every way up still ends. -/
theorem redirect_wellFounded (hr : WellFounded r) (hclear : ¬ Relation.ReflTransGen r a b)
    (hnew : ∀ p c, r' p c → r p c ∨ c = a ∧ p = b) : WellFounded r' := by
  have hkept : ∀ x, ¬ Relation.ReflTransGen r a x → Acc r' x := by
    intro x
    induction x using hr.induction with
    | _ x ih =>
      intro hx
      refine ⟨x, fun p hp => ?_⟩
      rcases hnew p x hp with hold | ⟨rfl, -⟩
      · exact ih p hold fun h => hx (h.tail hold)
      · exact absurd .refl hx
  refine ⟨fun x => ?_⟩
  induction x using hr.induction with
  | _ x ih =>
    refine ⟨x, fun p hp => ?_⟩
    rcases hnew p x hp with hold | ⟨rfl, rfl⟩
    · exact ih p hold
    · exact hkept p hclear

/-- If only finitely many elements have a way up, every way down ends too. -/
theorem flip_wellFounded (hr : WellFounded r) {s : Set α} (hfin : s.Finite) (hs : ∀ p c, r p c → c ∈ s) :
    WellFounded (flip r) := by
  have : Finite s := hfin
  let below : s → s → Prop := fun c p => Relation.TransGen r p.1 c.1
  have : IsTrans s below := ⟨fun _ _ _ h1 h2 => h2.trans h1⟩
  have : Std.Irrefl below := ⟨fun _ h => hr.transGen.asymmetric _ _ h h⟩
  have hwf : WellFounded below := Finite.wellFounded_of_trans_of_irrefl below
  have hacc : ∀ x : s, Acc (flip r) x.1 := by
    intro x
    induction x using hwf.induction with
    | _ x ih => exact ⟨_, fun c hc => ih ⟨c, hs _ c hc⟩ (.single hc)⟩
  exact ⟨fun x => ⟨x, fun c hc => hacc ⟨c, hs x c hc⟩⟩⟩

/-- What holds from some number of turns on. -/
def Eventually (P : Nat → Prop) : Prop := ∃ n, ∀ turns, n ≤ turns → P turns

theorem Eventually.succ {P : Nat → Prop} (h : Eventually fun turns => P (turns + 1)) : Eventually P := by
  obtain ⟨n, hn⟩ := h
  refine ⟨n + 1, fun turns ht => ?_⟩
  obtain ⟨t, rfl⟩ : ∃ t, turns = t + 1 := ⟨turns - 1, by omega⟩
  exact hn t (by omega)

theorem Eventually.and {P Q : Nat → Prop} (hP : Eventually P) (hQ : Eventually Q) :
    Eventually fun turns => P turns ∧ Q turns := by
  obtain ⟨n, hn⟩ := hP
  obtain ⟨m, hm⟩ := hQ
  exact ⟨n + m, fun turns ht => ⟨hn turns (by omega), hm turns (by omega)⟩⟩

theorem Eventually.list {P : α → Nat → Prop} (l : List α) (h : ∀ a ∈ l, Eventually (P a)) :
    Eventually fun turns => ∀ a ∈ l, P a turns := by
  induction l with
  | nil => exact ⟨0, by simp⟩
  | cons a l ih =>
    obtain ⟨n, hn⟩ := (h a (by simp)).and (ih fun b hb => h b (by simp [hb]))
    exact ⟨n, fun turns ht => List.forall_mem_cons.mpr (hn turns ht)⟩

end Autorun.Lib
