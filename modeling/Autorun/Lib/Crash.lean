import Mathlib.Logic.Relation

namespace Autorun.Lib

/-- Programs that look at a state and change it act by act, and see whether an act succeeded. -/
inductive Prog (σ ι α : Type) where
  | ret (a : α)
  | look (k : σ → Prog σ ι α)
  | act (i : ι) (k : Bool → Prog σ ι α)

namespace Prog

variable {σ ι α β : Type}

def bind : Prog σ ι α → (α → Prog σ ι β) → Prog σ ι β
  | .ret a, f => f a
  | .look k, f => .look fun s => (k s).bind f
  | .act i k, f => .act i fun ok => (k ok).bind f

theorem bind_assoc {γ : Type} (p : Prog σ ι α) (f : α → Prog σ ι β) (g : β → Prog σ ι γ) :
    (p.bind f).bind g = p.bind fun a => (f a).bind g := by
  induction p with
  | ret a => rfl
  | look k ih =>
    exact congrArg Prog.look (funext ih)
  | act i k ih =>
    exact congrArg (Prog.act i) (funext ih)

theorem bind_ret (p : Prog σ ι α) : p.bind .ret = p := by
  induction p with
  | ret a => rfl
  | look k ih =>
    exact congrArg Prog.look (funext ih)
  | act i k ih =>
    exact congrArg (Prog.act i) (funext ih)

/-- Goes on if the first program answers yes. -/
def check (p : Prog σ ι Bool) (bad : α) (next : Prog σ ι α) : Prog σ ι α :=
  p.bind fun ok => if ok then next else .ret bad

/-- One act after another, up to the first that fails. -/
def all : List ι → Prog σ ι Bool
  | [] => .ret true
  | i :: rest => .act i fun ok => if ok then all rest else .ret false

/-- How acts change the state, what a stop at one leaves, and what one that fails leaves. -/
structure Acts (σ ι : Type) where
  apply : ι → σ → σ
  stop : ι → σ → σ → Prop
  fail : ι → σ → σ → Prop

variable (acts : Acts σ ι)

/-- The answer and the state at the end when every act succeeds. -/
def run : Prog σ ι α → σ → α × σ
  | .ret a, s => (a, s)
  | .look k, s => (k s).run s
  | .act i k, s => (k true).run (acts.apply i s)

/-- A stop can leave the second state. -/
def Cut : Prog σ ι α → σ → σ → Prop
  | .ret _, s, s' => s' = s
  | .look k, s, s' => (k s).Cut s s'
  | .act i k, s, s' =>
    acts.stop i s s' ∨ (k true).Cut (acts.apply i s) s' ∨ ∃ t, acts.fail i s t ∧ (k false).Cut t s'

/-- The program can end so. -/
def Ends : Prog σ ι α → σ → α → σ → Prop
  | .ret a, s, b, s' => b = a ∧ s' = s
  | .look k, s, b, s' => (k s).Ends s b s'
  | .act i k, s, b, s' => (k true).Ends (acts.apply i s) b s' ∨ ∃ t, acts.fail i s t ∧ (k false).Ends t b s'

/-- Wherever a stop comes it leaves `P`, and every end is `Q`. -/
def Safe (P : σ → Prop) (Q : α → σ → Prop) : Prog σ ι α → σ → Prop
  | .ret a, s => P s ∧ Q a s
  | .look k, s => (k s).Safe P Q s
  | .act i k, s => (∀ s', acts.stop i s s' → P s') ∧ (k true).Safe P Q (acts.apply i s) ∧
      ∀ t, acts.fail i s t → (k false).Safe P Q t

variable {acts} {P : σ → Prop} {Q : α → σ → Prop}

variable {s s' : σ} {p next : Prog σ ι α}

theorem Safe.now (h : p.Safe acts P Q s) (hstop : ∀ i s, acts.stop i s s) : P s := by
  induction p with
  | ret a => exact h.1
  | look k ih => exact ih s h
  | act i k ih => exact h.1 s (hstop i s)

theorem Safe.cut (h : p.Safe acts P Q s) (hcut : p.Cut acts s s') : P s' := by
  induction p generalizing s with
  | ret a =>
    rw [show s' = s from hcut]
    exact h.1
  | look k ih => exact ih s h hcut
  | act i k ih =>
    rcases hcut with hstop | hcut | ⟨t, hfail, hcut⟩
    · exact h.1 s' hstop
    · exact ih true h.2.1 hcut
    · exact ih false (h.2.2 t hfail) hcut

theorem Safe.ends {a : α} (h : p.Safe acts P Q s) (hends : p.Ends acts s a s') : Q a s' := by
  induction p generalizing s with
  | ret b =>
    obtain ⟨rfl, rfl⟩ := hends
    exact h.2
  | look k ih => exact ih s h hends
  | act i k ih =>
    rcases hends with hends | ⟨t, hfail, hends⟩
    · exact ih true h.2.1 hends
    · exact ih false (h.2.2 t hfail) hends

theorem Safe.run (h : p.Safe acts P Q s) : Q (p.run acts s).1 (p.run acts s).2 := by
  induction p generalizing s with
  | ret a => exact h.2
  | look k ih => exact ih s h
  | act i k ih => exact ih true h.2.1

theorem ends_run (p : Prog σ ι α) (s : σ) : p.Ends acts s (p.run acts s).1 (p.run acts s).2 := by
  induction p generalizing s with
  | ret a => exact ⟨rfl, rfl⟩
  | look k ih => exact ih s s
  | act i k ih => exact .inl (ih true _)

/-- A stop before the next act. -/
theorem cut_now (hstop : ∀ i s, acts.stop i s s) (p : Prog σ ι α) (s : σ) : p.Cut acts s s := by
  induction p generalizing s with
  | ret a => rfl
  | look k ih => exact ih s s
  | act i k ih => exact .inl (hstop i s)

/-- A stop in what comes after. -/
theorem cut_bind (p : Prog σ ι α) (f : α → Prog σ ι β)
    (h : (f (p.run acts s).1).Cut acts (p.run acts s).2 s') : (p.bind f).Cut acts s s' := by
  induction p generalizing s with
  | ret a => exact h
  | look k ih => exact ih s h
  | act i k ih => exact .inr (.inl (ih true h))

variable {Q' : α → σ → Prop} {P' T : σ → Prop}

theorem Safe.mono (h : p.Safe acts P Q s)
    (hP : ∀ s, P s → P' s) (hQ : ∀ a s, Q a s → Q' a s) : p.Safe acts P' Q' s := by
  induction p generalizing s with
  | ret a => exact ⟨hP s h.1, hQ a s h.2⟩
  | look k ih => exact ih s h
  | act i k ih =>
    exact ⟨fun s' hs' => hP s' (h.1 s' hs'), ih true h.2.1, fun t hfail => ih false (h.2.2 t hfail)⟩

variable {f : α → Prog σ ι β}

/-- One program after another. -/
theorem Safe.bind {R : β → σ → Prop}
    (h : p.Safe acts P Q s) (hf : ∀ a s, Q a s → (f a).Safe acts P R s) : (p.bind f).Safe acts P R s := by
  induction p generalizing s with
  | ret a => exact hf a s h.2
  | look k ih => exact ih s h
  | act i k ih => exact ⟨h.1, ih true h.2.1, fun t hfail => ih false (h.2.2 t hfail)⟩

/-- A program of which the answer and the state at its end are known. -/
theorem Safe.bind_eq {R : β → σ → Prop} {a : α} {t : σ} (h : p.Safe acts P (fun b s => b = a ∧ s = t) s)
    (hf : (f a).Safe acts P R t) : (p.bind f).Safe acts P R s := by
  refine h.bind ?_
  rintro _ _ ⟨rfl, rfl⟩
  exact hf

variable {bad : α}

/-- A check that answers yes. -/
theorem Safe.check {R : α → σ → Prop} {p : Prog σ ι Bool}
    (h : p.Safe acts P (fun ok s => ok = true ∧ T s) s) (hnext : ∀ s, T s → next.Safe acts P R s) :
    (p.check bad next).Safe acts P R s := by
  refine h.bind fun ok s hok => ?_
  rw [hok.1, if_pos rfl]
  exact hnext s hok.2

/-- A check that can also answer no. -/
theorem Safe.checked {R : α → σ → Prop} {p : Prog σ ι Bool}
    (h : p.Safe acts P (fun ok s => P s ∧ (ok = true → T s)) s) (hbad : ∀ s, P s → R bad s)
    (hnext : ∀ s, T s → next.Safe acts P R s) : (p.check bad next).Safe acts P R s := by
  refine h.bind fun ok s hok => ?_
  cases ok with
  | false => exact ⟨hok.1, hbad s hok.1⟩
  | true => exact hnext s (hok.2 rfl)

theorem Safe.and (h : p.Safe acts P Q s)
    (h' : p.Safe acts P' Q' s) : p.Safe acts (fun s => P s ∧ P' s) (fun a s => Q a s ∧ Q' a s) s := by
  induction p generalizing s with
  | ret a => exact ⟨⟨h.1, h'.1⟩, h.2, h'.2⟩
  | look k ih => exact ih s h h'
  | act i k ih =>
    exact ⟨fun s' hs' => ⟨h.1 s' hs', h'.1 s' hs'⟩, ih true h.2.1 h'.2.1,
      fun t hfail => ih false (h.2.2 t hfail) (h'.2.2 t hfail)⟩

/-- Every act of the program is `I`. -/
def Each (I : ι → Prop) : Prog σ ι α → Prop
  | .ret _ => True
  | .look k => ∀ s, (k s).Each I
  | .act i k => I i ∧ ∀ ok, (k ok).Each I

variable {I : ι → Prop}

theorem Each.bind (h : p.Each I) (hf : ∀ a, (f a).Each I) : (p.bind f).Each I := by
  induction p with
  | ret a => exact hf a
  | look k ih => exact fun s => ih s (h s)
  | act i k ih => exact ⟨h.1, fun ok => ih ok (h.2 ok)⟩

theorem Each.check {p : Prog σ ι Bool} (h : p.Each I)
    (hnext : next.Each I) : (p.check bad next).Each I := by
  refine h.bind fun ok => ?_
  cases ok with
  | false => exact trivial
  | true => exact hnext

theorem Each.all {acts : List ι} (h : ∀ i ∈ acts, I i) : (all acts : Prog σ ι Bool).Each I := by
  induction acts with
  | nil => exact trivial
  | cons i rest ih =>
    refine ⟨h i (by simp), fun ok => ?_⟩
    cases ok with
    | false => exact trivial
    | true => exact ih fun j hj => h j (by simp [hj])

/-- When every act succeeds, each has had its effect. -/
theorem all_done (acts : Acts σ ι) (list : List ι) (s : σ) : (all list).Safe acts (fun _ => True)
    (fun ok s' => ok = true → s' = list.foldl (fun s i => acts.apply i s) s) s := by
  induction list generalizing s with
  | nil => exact ⟨trivial, fun _ => rfl⟩
  | cons i rest ih => exact ⟨fun _ _ => trivial, ih _, fun _ _ => ⟨trivial, by simp⟩⟩

/-- What every act keeps, whether it succeeds, fails or is stopped, the program keeps. -/
structure Keeps (acts : Acts σ ι) (I : ι → Prop) (P : σ → Prop) : Prop where
  step : ∀ i s, I i → P s → P (acts.apply i s)
  stop : ∀ i s s', I i → P s → acts.stop i s s' → P s'
  fail : ∀ i s s', I i → P s → acts.fail i s s' → P s'

theorem Each.safe (h : p.Each I) (hkeeps : Keeps acts I P) (hs : P s) :
    p.Safe acts P (fun _ => P) s := by
  induction p generalizing s with
  | ret a => exact ⟨hs, hs⟩
  | look k ih => exact ih s (h s) hs
  | act i k ih =>
    exact ⟨fun s' hs' => hkeeps.stop i s s' h.1 hs hs', ih true (h.2 true) (hkeeps.step i s h.1 hs),
      fun t hfail => ih false (h.2 false) (hkeeps.fail i s t h.1 hs hfail)⟩

/-- Only these acts can be stopped, and only these can fail. -/
def Acts.only (acts : Acts σ ι) (stops fails : ι → Prop) : Acts σ ι where
  apply := acts.apply
  stop := fun i s s' => stops i ∧ acts.stop i s s'
  fail := fun i s s' => fails i ∧ acts.fail i s s'

/-- The program is stopped there or ends there. -/
def Leaves (acts : Acts σ ι) (p : Prog σ ι α) (s s' : σ) : Prop :=
  p.Cut acts s s' ∨ ∃ a, p.Ends acts s a s'

theorem Safe.leaves (h : p.Safe acts P (fun _ => P) s) (hleaves : p.Leaves acts s s') : P s' := by
  rcases hleaves with hcut | ⟨a, hends⟩
  · exact h.cut hcut
  · exact h.ends hends

variable {i : ι}

theorem leaves_act {k : Bool → Prog σ ι α} (h : (k true).Leaves acts (acts.apply i s) s') :
    (act i k).Leaves acts s s' := by
  rcases h with hcut | ⟨a, hends⟩
  · exact .inl (.inr (.inl hcut))
  · exact .inr ⟨a, .inl hends⟩

/-- A program that is stopped in its first part, or ends it and goes on from there. -/
theorem Leaves.bind_cases (h : (p.bind f).Leaves acts s s') :
    p.Cut acts s s' ∨ ∃ a t, p.Ends acts s a t ∧ (f a).Leaves acts t s' := by
  induction p generalizing s with
  | ret a => exact .inr ⟨a, s, ⟨rfl, rfl⟩, h⟩
  | look k ih => exact ih s h
  | act i k ih =>
    have hacts : acts.stop i s s' ∨ ((k true).bind f).Leaves acts (acts.apply i s) s' ∨
        ∃ t, acts.fail i s t ∧ ((k false).bind f).Leaves acts t s' := by
      rcases h with (hstop | hcut | ⟨t, hfail, hcut⟩) | ⟨a, hends | ⟨t, hfail, hends⟩⟩
      · exact .inl hstop
      · exact .inr (.inl (.inl hcut))
      · exact .inr (.inr ⟨t, hfail, .inl hcut⟩)
      · exact .inr (.inl (.inr ⟨a, hends⟩))
      · exact .inr (.inr ⟨t, hfail, .inr ⟨a, hends⟩⟩)
    rcases hacts with hstop | htrue | ⟨t, hfail, hfalse⟩
    · exact .inl (.inl hstop)
    · rcases ih true htrue with hcut | ⟨a, u, hends, hrest⟩
      · exact .inl (.inr (.inl hcut))
      · exact .inr ⟨a, u, .inl hends, hrest⟩
    · rcases ih false hfalse with hcut | ⟨a, u, hends, hrest⟩
      · exact .inl (.inr (.inr ⟨t, hfail, hcut⟩))
      · exact .inr ⟨a, u, .inr ⟨t, hfail, hends⟩, hrest⟩

/-- What comes after is left so. -/
theorem leaves_bind (p : Prog σ ι α) (f : α → Prog σ ι β)
    (h : (f (p.run acts s).1).Leaves acts (p.run acts s).2 s') : (p.bind f).Leaves acts s s' := by
  induction p generalizing s with
  | ret a => exact h
  | look k ih => exact ih s h
  | act i k ih => exact leaves_act (ih true h)

/-- The act after `n` acts that succeed, what a stop at it leaves, and what the rest leaves when it alone fails and
has done nothing. -/
def fault (acts : Acts σ ι) : Prog σ ι α → Nat → σ → Option (ι × σ × σ)
  | .ret _, _, _ => none
  | .look k, n, s => (k s).fault acts n s
  | .act i k, 0, s => some (i, s, ((k false).run acts s).2)
  | .act i k, n + 1, s => (k true).fault acts n (acts.apply i s)

theorem leaves_fault {n : Nat} {stopped failed : σ}
    (h : p.fault acts n s = some (i, stopped, failed)) :
    (acts.stop i stopped stopped → p.Leaves acts s stopped) ∧ (acts.fail i stopped stopped → p.Leaves acts s failed) := by
  induction p generalizing n s with
  | ret a => cases h
  | look k ih => exact ih s h
  | act i k ih =>
    cases n with
    | zero =>
      cases h
      exact ⟨fun hstop => .inl (.inl hstop), fun hfail => .inr ⟨_, .inr ⟨_, hfail, ends_run _ _⟩⟩⟩
    | succ n =>
      obtain ⟨hstop, hfail⟩ := ih true h
      exact ⟨fun hs => leaves_act (hstop hs), fun hf => leaves_act (hfail hf)⟩

theorem run_only (stops fails : ι → Prop) (p : Prog σ ι α) (s : σ) :
    p.run (acts.only stops fails) s = p.run acts s := by
  induction p generalizing s with
  | ret a => rfl
  | look k ih => exact ih s s
  | act i k ih => exact ih true _

theorem fault_only (stops fails : ι → Prop) (p : Prog σ ι α) (n : Nat) (s : σ) :
    p.fault (acts.only stops fails) n s = p.fault acts n s := by
  induction p generalizing n s with
  | ret a => rfl
  | look k ih => exact ih s n s
  | act i k ih =>
    cases n with
    | zero => rw [fault, fault, run_only]
    | succ n => exact ih true n _

/-- No act fails, and wherever a stop comes it leaves `P`. -/
def Sure (acts : Acts σ ι) (P : σ → Prop) : Prog σ ι α → σ → Prop
  | .ret _, _ => True
  | .look k, s => (k s).Sure acts P s
  | .act i k, s => (∀ s', acts.stop i s s' → P s') ∧ (∀ s', ¬ acts.fail i s s') ∧ (k true).Sure acts P (acts.apply i s)

theorem run_bind (p : Prog σ ι α) (f : α → Prog σ ι β) (s : σ) :
    (p.bind f).run acts s = (f (p.run acts s).1).run acts (p.run acts s).2 := by
  induction p generalizing s with
  | ret a => rfl
  | look k ih => exact ih s s
  | act i k ih => exact ih true _

theorem Sure.seq (h : p.Sure acts P s)
    (hf : (f (p.run acts s).1).Sure acts P (p.run acts s).2) : (p.bind f).Sure acts P s := by
  induction p generalizing s with
  | ret a => exact hf
  | look k ih => exact ih s h hf
  | act i k ih => exact ⟨h.1, h.2.1, ih true h.2.2 hf⟩

theorem Sure.bind {R : β → σ → Prop} (h : p.Sure acts P s)
    (hf : (f (p.run acts s).1).Safe acts P R (p.run acts s).2) : (p.bind f).Safe acts P R s := by
  induction p generalizing s with
  | ret a => exact hf
  | look k ih => exact ih s h hf
  | act i k ih =>
    exact ⟨h.1, ih true h.2.2 hf, fun t hfail => absurd hfail (h.2.1 t)⟩

/-- What stops can leave after any number of interrupted runs. -/
theorem Safe.cuts (h : ∀ s, P s → p.Safe acts P Q s) (hs : P s)
    (hcuts : Relation.ReflTransGen (p.Cut acts) s s') : P s' := by
  induction hcuts with
  | refl => exact hs
  | tail _ hcut ih => exact (h _ ih).cut hcut

end Prog

end Autorun.Lib
