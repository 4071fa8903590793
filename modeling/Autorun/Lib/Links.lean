import Mathlib.Logic.Function.Basic
import Mathlib.Data.List.Nodup

namespace Autorun.Lib

open Function

variable {next prev next' prev' : Nat → Nat} {none : Nat}

/-- The nodes of a list that two tables link both ways, from its head on; `before` is what the
first of them has behind it. -/
def Linked (next prev : Nat → Nat) (none : Nat) : Nat → Nat → List Nat → Prop
  | _, head, [] => head = none
  | before, head, n :: ns =>
    head = n ∧ n ≠ none ∧ prev n = before ∧ Linked next prev none n (next n) ns

namespace Linked

/-- Only the links of its nodes make the list. -/
theorem congr (h : Linked next prev none before head ns) (hnext : ∀ n ∈ ns, next' n = next n)
    (hprev : ∀ n ∈ ns, prev' n = prev n) : Linked next' prev' none before head ns := by
  induction ns generalizing before head with
  | nil => exact h
  | cons n ns ih =>
    obtain ⟨hhead, hnone, hback, hrest⟩ := h
    refine ⟨hhead, hnone, (hprev n (by simp)).trans hback, ?_⟩
    rw [hnext n (by simp)]
    exact ih hrest (fun x hx => hnext x (by simp [hx])) fun x hx => hprev x (by simp [hx])

theorem head_eq (h : Linked next prev none before head ns) : head = ns.headD none := by
  cases ns with
  | nil => exact h
  | cons n ns => exact h.1

theorem ne_none (h : Linked next prev none before head ns) : ∀ n ∈ ns, n ≠ none := by
  induction ns generalizing before head with
  | nil => simp
  | cons n ns ih =>
    intro x hx
    rcases List.mem_cons.mp hx with rfl | hx
    · exact h.2.1
    · exact ih h.2.2.2 x hx

/-- The tail of the list from one of its nodes on. -/
theorem suffix (h : Linked next prev none before head (xs ++ n :: ys)) :
    Linked next prev none n (next n) ys := by
  induction xs generalizing before head with
  | nil => exact h.2.2.2
  | cons x xs ih => exact ih h.2.2.2

theorem next_cases (h : Linked next prev none before head (xs ++ n :: ys)) :
    next n = none ∨ next n ∈ ys := by
  have hsuffix := h.suffix
  cases ys with
  | nil => exact .inl hsuffix
  | cons y ys => exact .inr (by rw [hsuffix.1]; simp)

theorem prev_cases (h : Linked next prev none before head (xs ++ n :: ys)) :
    prev n = before ∨ prev n ∈ xs := by
  induction xs generalizing before head with
  | nil => exact .inl h.2.2.1
  | cons x xs ih =>
    rcases ih h.2.2.2 with hx | hx
    · exact .inr (by simp [hx])
    · exact .inr (by simp [hx])

/-- A node before the head. -/
theorem push (h : Linked next prev none none head ns) (hnodup : ns.Nodup) (hn : n ≠ none)
    (hself : next' n = head) (hback : prev' n = none) (hnext : ∀ x ∈ ns, next' x = next x)
    (hprev : ∀ x ∈ ns, prev' x = if head = x then n else prev x) :
    Linked next' prev' none none n (n :: ns) := by
  refine ⟨rfl, hn, hback, ?_⟩
  rw [hself]
  cases ns with
  | nil => exact h
  | cons y ys =>
    obtain ⟨rfl, hy, -, hrest⟩ := h
    refine ⟨rfl, hy, by rw [hprev head (by simp), if_pos rfl], ?_⟩
    rw [hnext head (by simp)]
    refine hrest.congr (fun x hx => hnext x (by simp [hx])) fun x hx => ?_
    rw [hprev x (by simp [hx]), if_neg]
    rintro rfl
    exact (List.nodup_cons.mp hnodup).1 hx

/-- A node is taken out: what is before it and what is behind it are linked. -/
theorem remove (h : Linked next prev none before head (xs ++ n :: ys))
    (hnodup : (xs ++ n :: ys).Nodup) (hbefore : before ∉ xs ++ n :: ys)
    (hnext : ∀ x ∈ xs ++ ys, next' x = if prev n = x then next n else next x)
    (hprev : ∀ x ∈ xs ++ ys, prev' x = if next n = x then prev n else prev x) :
    Linked next' prev' none before (if prev n = before then next n else head) (xs ++ ys) := by
  induction xs generalizing before head with
  | nil =>
    obtain ⟨-, -, hback, hrest⟩ := h
    rw [if_pos hback]
    obtain ⟨-, hys⟩ := List.nodup_cons.mp hnodup
    have hkeep : ∀ x ∈ ys, next' x = next x := by
      intro x hx
      rw [hnext x hx, if_neg]
      rintro rfl
      exact hbefore (by simp [← hback, hx])
    cases ys with
    | nil => exact hrest
    | cons y ys =>
      obtain ⟨hy, hnone, -, hrest⟩ := hrest
      refine ⟨hy, hnone, by rw [hprev y (by simp), if_pos hy, hback], ?_⟩
      rw [hkeep y (by simp)]
      refine hrest.congr (fun x hx => hkeep x (by simp [hx])) fun x hx => ?_
      rw [hprev x (by simp [hx]), if_neg]
      rw [hy]
      rintro rfl
      exact (List.nodup_cons.mp hys).1 hx
  | cons x xs ih =>
    obtain ⟨rfl, hnone, hback, hrest⟩ := h
    obtain ⟨hx, hnodup⟩ := List.nodup_cons.mp hnodup
    -- Neither of the node's links leads to the first one's place.
    have hback' : prev n ≠ before := by
      rintro he
      rcases hrest.prev_cases with h | h
      · exact hbefore (by simp [← he, h])
      · exact hbefore (by simp [← he, h])
    have hahead : next n ≠ head := by
      intro he
      rcases hrest.next_cases with h | h
      · exact hnone (he ▸ h)
      · exact hx (by simp [← he, h])
    rw [if_neg hback']
    refine ⟨rfl, hnone, by rw [hprev head (by simp), if_neg hahead, hback], ?_⟩
    rw [hnext head (by simp)]
    refine ih hrest hnodup hx (fun y hy => hnext y ?_) (fun y hy => hprev y ?_)
    · exact List.mem_cons_of_mem _ hy
    · exact List.mem_cons_of_mem _ hy

end Linked

/-- Lists by number, that share no node. -/
structure Binned (heads next prev : Nat → Nat) (none : Nat) (lists : Nat → List Nat) : Prop where
  linked : ∀ b, Linked next prev none none (heads b) (lists b)
  nodup : ∀ b, (lists b).Nodup
  apart : ∀ b b' n, n ∈ lists b → n ∈ lists b' → b = b'

namespace Binned

variable {heads heads' : Nat → Nat} {lists : Nat → List Nat}

theorem head_cases (h : Binned heads next prev none lists) (b : Nat) :
    heads b = none ∨ heads b ∈ lists b := by
  have hhead := (h.linked b).head_eq
  cases hl : lists b with
  | nil => exact .inl (by rw [hhead, hl]; rfl)
  | cons n ns => exact .inr (by rw [hhead, hl]; simp)

theorem link_cases (h : Binned heads next prev none lists) (hn : n ∈ lists b) :
    (next n = none ∨ next n ∈ lists b ∧ next n ≠ n) ∧
      (prev n = none ∨ prev n ∈ lists b ∧ prev n ≠ n) := by
  obtain ⟨xs, ys, hsplit⟩ := List.append_of_mem hn
  have hlinked := hsplit ▸ h.linked b
  have hnodup := hsplit ▸ h.nodup b
  rw [hsplit]
  constructor
  · refine hlinked.next_cases.imp_right fun hnext => ⟨by simp [hnext], ?_⟩
    intro he
    rw [he] at hnext
    exact (List.nodup_cons.mp (List.nodup_append.mp hnodup).2.1).1 hnext
  · refine hlinked.prev_cases.imp_right fun hprev => ⟨by simp [hprev], ?_⟩
    intro he
    rw [he] at hprev
    exact (List.nodup_append.mp hnodup).2.2 n hprev n (by simp) rfl

theorem push (h : Binned heads next prev none lists) (hn : n ≠ none) (hout : ∀ b, n ∉ lists b)
    (hheads : ∀ b', heads' b' = if b' = b then n else heads b')
    (hself : next' n = heads b) (hback : prev' n = none)
    (hnext : ∀ b, ∀ x ∈ lists b, next' x = next x)
    (hprev : ∀ b', ∀ x ∈ lists b', prev' x = if heads b = x then n else prev x) :
    Binned heads' next' prev' none (update lists b (n :: lists b)) := by
  refine ⟨fun b' => ?_, fun b' => ?_, fun b1 b2 x h1 h2 => ?_⟩
  · rw [hheads b']
    by_cases hb : b' = b
    · subst hb
      rw [if_pos rfl, update_self]
      exact (h.linked b').push (h.nodup b') hn hself hback (hnext b') (hprev b')
    · rw [if_neg hb, update_of_ne hb]
      refine (h.linked b').congr (hnext b') fun x hx => ?_
      rw [hprev b' x hx, if_neg]
      rintro rfl
      rcases h.head_cases b with hnone | hmem
      · exact (h.linked b').ne_none _ hx hnone
      · exact hb (h.apart b' b _ hx hmem)
  · by_cases hb : b' = b
    · subst hb
      rw [update_self]
      exact List.nodup_cons.mpr ⟨hout b', h.nodup b'⟩
    · rw [update_of_ne hb]
      exact h.nodup b'
  · have hmem : ∀ b', x ∈ update lists b (n :: lists b) b' →
        x = n ∧ b' = b ∨ x ≠ n ∧ x ∈ lists b' := by
      intro b' hx
      by_cases hb : b' = b
      · subst hb
        rw [update_self] at hx
        rcases List.mem_cons.mp hx with rfl | hx
        · exact .inl ⟨rfl, rfl⟩
        · exact .inr ⟨fun he => hout b' (he ▸ hx), hx⟩
      · rw [update_of_ne hb] at hx
        exact .inr ⟨fun he => hout b' (he ▸ hx), hx⟩
    rcases hmem b1 h1 with ⟨he, rfl⟩ | ⟨hne, h1⟩
    · rcases hmem b2 h2 with ⟨-, rfl⟩ | ⟨hne, -⟩
      · rfl
      · exact absurd he hne
    · rcases hmem b2 h2 with ⟨he, -⟩ | ⟨-, h2⟩
      · exact absurd he hne
      · exact h.apart b1 b2 x h1 h2

theorem remove (h : Binned heads next prev none lists) (hn : n ∈ lists b)
    (hheads : ∀ b', heads' b' = if b' = b ∧ prev n = none then next n else heads b')
    (hnext : ∀ b', ∀ x ∈ lists b', x ≠ n → next' x = if prev n = x then next n else next x)
    (hprev : ∀ b', ∀ x ∈ lists b', x ≠ n → prev' x = if next n = x then prev n else prev x) :
    Binned heads' next' prev' none (update lists b ((lists b).erase n)) := by
  have hsub : ∀ b', (update lists b ((lists b).erase n) b').Sublist (lists b') := by
    intro b'
    by_cases hb : b' = b
    · subst hb
      rw [update_self]
      exact List.erase_sublist
    · rw [update_of_ne hb]
  refine ⟨fun b' => ?_, fun b' => (h.nodup b').sublist (hsub b'),
    fun b1 b2 x h1 h2 => h.apart b1 b2 x ((hsub b1).subset h1) ((hsub b2).subset h2)⟩
  rw [hheads b']
  by_cases hb : b' = b
  · subst hb
    obtain ⟨xs, ys, hsplit⟩ := List.append_of_mem hn
    have hlinked := hsplit ▸ h.linked b'
    have hnodup := hsplit ▸ h.nodup b'
    have hxs : n ∉ xs := fun hx => (List.nodup_append.mp hnodup).2.2 n hx n (by simp) rfl
    have hys : n ∉ ys := (List.nodup_cons.mp (List.nodup_append.mp hnodup).2.1).1
    have herase : (lists b').erase n = xs ++ ys := by
      rw [hsplit, List.erase_append_right _ hxs, List.erase_cons_head]
    have hkept : ∀ x ∈ xs ++ ys, x ∈ lists b' ∧ x ≠ n := by
      intro x hx
      rw [hsplit]
      rcases List.mem_append.mp hx with hx | hx
      · exact ⟨by simp [hx], fun he => hxs (he ▸ hx)⟩
      · exact ⟨by simp [hx], fun he => hys (he ▸ hx)⟩
    rw [update_self, herase]
    have hremoved := hlinked.remove hnodup (fun hmem => hlinked.ne_none _ hmem rfl)
      (fun x hx => hnext b' x (hkept x hx).1 (hkept x hx).2)
      (fun x hx => hprev b' x (hkept x hx).1 (hkept x hx).2)
    simpa using hremoved
  · rw [if_neg (fun hand => hb hand.1), update_of_ne hb]
    have hother : ∀ x ∈ lists b', x ≠ n := fun x hx he => hb (h.apart b' b n (he ▸ hx) hn)
    obtain ⟨hahead, hbehind⟩ := h.link_cases hn
    refine (h.linked b').congr (fun x hx => ?_) fun x hx => ?_
    · rw [hnext b' x hx (hother x hx), if_neg]
      rintro rfl
      rcases hbehind with hnone | ⟨hmem, -⟩
      · exact (h.linked b').ne_none _ hx hnone
      · exact hb (h.apart b' b _ hx hmem)
    · rw [hprev b' x hx (hother x hx), if_neg]
      rintro rfl
      rcases hahead with hnone | ⟨hmem, -⟩
      · exact (h.linked b').ne_none _ hx hnone
      · exact hb (h.apart b' b _ hx hmem)

end Binned

end Autorun.Lib
