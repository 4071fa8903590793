import Autorun.Proofs.BootInstall

namespace Autorun.Setup

open Autorun.Lib List

variable {env : Env} {whole : Path → Prop} {O : Card → Prop} {card : Card} {x : Tx env}

def CollisionFree (env : Env) (K : Bytes → Prop) : Prop := ∀ a b, K a → K b → env.hash a = env.hash b → a = b

/-! All or nothing. -/

/-- The file is in its place even if it is not changed. -/
def Fix.Solid (x : Fix) : Prop := x.changed = false → ∃ o, x.old = some o ∧ o.length ≤ payloadLimit

variable {f : Fixed} {committed : Bool}

theorem Fix.Done.small {x : Fix} (h : x.Done f committed card) (hsmall : x.Small)
    (hsolid : x.Solid) : ∀ b, card f.path = some b → b.length ≤ payloadLimit := by
  intro b hb
  have hold : card f.path = x.old → b.length ≤ payloadLimit := by
    intro hpath
    cases hchanged : x.changed with
    | true => exact hsmall.old hchanged b (hpath.symm.trans hb)
    | false =>
      obtain ⟨o, ho, hlength⟩ := hsolid hchanged
      rw [hpath, ho] at hb
      exact Option.some.inj hb ▸ hlength
  cases committed with
  | false => exact hold h.1
  | true =>
    rw [Fix.Done, if_pos rfl, Fix.Fresh] at h
    split at h
    · rw [h.1] at hb
      exact Option.some.inj hb ▸ hsmall.new
    · exact hold h.1

theorem Fix.Done.missing {x : Fix} (h : x.Done f committed card) (hsolid : x.Solid)
    (hnone : card f.path = none) : card f.previous = none := by
  have hchanged : card f.path = x.old → x.changed = true := by
    intro hpath
    cases hchanged : x.changed with
    | true => rfl
    | false =>
      obtain ⟨o, ho, -⟩ := hsolid hchanged
      cases hnone.symm.trans (hpath.trans ho)
  cases committed with
  | false => exact h.2.trans (if_pos (hchanged h.1))
  | true =>
    rw [Fix.Done, if_pos rfl, Fix.Fresh] at h
    split at h
    · cases hnone.symm.trans h.1
    case isFalse hsame => exact absurd (hchanged h.1) hsame

namespace Tx

theorem settled_calm (hO : Aside env O) (hkernel : x.kernel.Solid) (hloader : x.loader.Solid) :
    Calm env (x.Settled O) where
  journal := fun _ h => h.journal
  hoc := by
    refine ⟨fun c h => hO.ready c h.outside, fun c h hkip hprevious => ?_⟩
    refine h.congr (hO.moved c h.outside hkip hprevious) rfl rfl rfl fun f hf => ?_
    rcases eq_of_target hf with rfl | rfl
    · exact ⟨rfl, rfl⟩
    · exact ⟨rfl, rfl⟩
  committed := by
    intro c h
    refine h.congr (hO.congr c _ h.outside (.update c rfl none)) rfl rfl rfl fun f hf => ?_
    rcases eq_of_target hf with rfl | rfl
    · exact ⟨rfl, rfl⟩
    · exact ⟨rfl, rfl⟩
  small := by
    intro f hf c h
    obtain ⟨committed, -, hk, hl⟩ := h.state
    rcases eq_of_target hf with rfl | rfl
    · exact hl.small x.loader_small hloader
    · exact hk.small x.kernel_small hkernel
  previous := by
    intro f hf c h hnone b hb
    obtain ⟨committed, -, hk, hl⟩ := h.state
    rcases eq_of_target hf with rfl | rfl
    · cases (hl.missing hloader hnone).symm.trans hb
    · cases (hk.missing hkernel hnone).symm.trans hb

/-- With a part of a journal a recovery changes nothing and says so. -/
theorem recover_short (hO : Aside env O) (h : Short O card) :
    (recover env).Safe (cardActs whole) (Short O) (fun result c => result = .recovery ∧ Short O c) card := by
  obtain ⟨hcard, j, hj, hlength⟩ := h
  have hshort : ∀ c, O c → Inside card c → Short O c :=
    fun c hc hinside => ⟨hc, j, (hinside _ rfl).trans hj, hlength⟩
  unfold recover
  refine Prog.Safe.check (recoverHoc_safe hO.toHocKept hcard hshort) ?_
  rintro c ⟨hc, hinside⟩
  have hnone : Transaction.ofBytes j = none := by
    unfold Transaction.ofBytes
    rw [if_neg fun hfull => Nat.ne_of_lt hlength hfull.1]
  refine read_safe ?_
  rw [(hinside .journal rfl).trans hj, readOf_some (Nat.le_of_lt hlength)]
  dsimp only
  rw [hnone]
  exact ⟨hshort c hc hinside, rfl, hshort c hc hinside⟩

/-- However often a recovery is stopped, one that ends well has settled the transaction. -/
theorem recover_left (hO : Aside env O) (hkernel : x.kernel.Solid) (hloader : x.loader.Solid)
    (h : x.Left whole O card) :
    (recover env).Safe (cardActs whole) (x.Left whole O)
      (fun result c => x.Left whole O c ∧ (result = .ok ∨ result = .already → x.Settled O c)) card := by
  rcases h with (hpending | hsettled) | ⟨htorn, hshort⟩
  · refine (recover_pending hO hpending).mono (fun c hc => .inl hc) fun result c hc => ?_
    rcases hc with ⟨-, hdone⟩ | ⟨-, rfl, hdone⟩
    · exact ⟨.inl (.inr hdone), fun _ => hdone⟩
    · refine ⟨hdone.left, fun hresult => ?_⟩
      rcases hresult with hresult | hresult <;> cases hresult
  · exact (recover_calm (settled_calm hO hkernel hloader) hsettled).mono (fun c hc => .inl (.inr hc))
      fun _ c hc => ⟨.inl (.inr hc.2), fun _ => hc.2⟩
  · refine (recover_short hO hshort).mono (fun c hc => .inr ⟨htorn, hc⟩) fun result c hc => ?_
    obtain ⟨rfl, hc⟩ := hc
    refine ⟨.inr ⟨htorn, hc⟩, fun hresult => ?_⟩
    rcases hresult with hresult | hresult <;> cases hresult

end Tx

/-- The contents that are told apart by their hashes: the files of the card, the new ones, and what the INI can be
on the way. -/
def Contents (s : Started) (card : Card) (b : Bytes) : Prop :=
  (∃ p, card p = some b) ∨ b <+: s.ini ∨ b <+: s.output ∨ b = s.plan.kernel ∨ b = s.plan.loader

theorem Begun.exact {s : Started} (h : Begun env s card) (hhash : CollisionFree env (Contents s card)) :
    IniExact env s ∧ card .staged = some s.output := by
  have hini : Contents s card s.ini := .inr (.inl (prefix_refl _))
  have houtput : Contents s card s.output := .inr (.inr (.inl (prefix_refl _)))
  refine ⟨fun a b ha hb => hhash a b ?_ ?_, ?_⟩
  · rcases ha with ha | ha
    · exact .inr (.inl ha)
    · exact .inr (.inr (.inl ha))
  · rcases hb with rfl | rfl
    · exact hini
    · exact houtput
  · obtain ⟨b, hb, hsame⟩ := h.staged
    rw [hb, hhash b _ (.inl ⟨_, hb⟩) houtput (of_decide_eq_true hsame).2]

theorem beyond_aside (hstill : HocStill card) : Aside env (Beyond card) where
  ready := by
    intro c hc
    rcases hstill.beyond hc with ⟨b, hkip, hsmall⟩ | ⟨hkip, hprevious⟩
    · exact .of_loader hkip hsmall
    · refine ⟨fun b hb => ?_, fun _ b hb => ?_⟩
      · cases hkip.symm.trans hb
      · cases hprevious.symm.trans hb
  moved := by
    intro c hc hkip hsome
    rcases hstill.beyond hc with ⟨b, hb, -⟩ | ⟨-, hnone⟩
    · cases hkip.symm.trans hb
    · rw [hnone] at hsome
      cases hsome
  congr := fun c c' hc hbeyond p hp => (hbeyond p hp).trans (hc p hp)

theorem stateOf_solid {new : Bytes} {state : FixedState}
    (hstate : state = stateOf env (card f.path) new) : (fixOf card f new state).Solid := by
  intro hchanged
  have hsame : state = .same := by simpa [fixOf] using hchanged
  obtain ⟨b, hb, hsmall, -⟩ := stateOf_same (hstate.symm.trans hsame)
  exact ⟨b, hb, hsmall⟩

theorem fixOf_new {new : Bytes} {state : FixedState} {c : Card} {K : Bytes → Prop}
    (hhash : CollisionFree env K) (hfile : ∀ b, card f.path = some b → K b) (hnew : K new)
    (hstate : state = stateOf env (card f.path) new) (h : (fixOf card f new state).Fresh f c) :
    c f.path = some new := by
  unfold Fix.Fresh at h
  split at h
  · exact h.1
  case isFalse hchanged =>
    have hsame : state = .same := by simpa [fixOf] using hchanged
    obtain ⟨b, hb, -, heq⟩ := stateOf_same (hstate.symm.trans hsame)
    rw [h.1, ← hhash b new (hfile b hb) hnew (of_decide_eq_true heq).2]
    exact hb

open Relation in
/-- Wherever the install and the recoveries after it are stopped, and whatever the stops tear, once a recovery ends
well the INI, the kernel and the loader are all as they were or all new, and nothing else is changed. -/
theorem boot_setup_all_or_nothing (env : Env) (choose : Card → Bytes → Except Result Plan)
    (card₀ card₁ card₂ card₃ : Card) (s : Started)
    (hstart : (prepare env choose).run (cardActs fun _ => False) card₀ = (.ok s, card₁))
    (hstock : s.plan.hoc = false) (hhash : CollisionFree env (Contents s card₁))
    (hstop : (transact env s).Cut (cardActs fun _ => False) card₁ card₂)
    (hstops : ReflTransGen ((recover env).Cut (cardActs fun _ => False)) card₂ card₃)
    (hdone : ((recover env).run (cardActs fun _ => False) card₃).1 = .ok ∨
      ((recover env).run (cardActs fun _ => False) card₃).1 = .already) :
    let card₄ := ((recover env).run (cardActs fun _ => False) card₃).2
    ((card₄ .ini = card₁ .ini ∧ card₄ .mesosphere = card₁ .mesosphere ∧ card₄ .stockKip = card₁ .stockKip) ∨
      (card₄ .ini = some s.output ∧ card₄ .mesosphere = some s.plan.kernel ∧
        card₄ .stockKip = some s.plan.loader)) ∧
    ∀ p, p.outside = true → card₄ p = card₁ p := by
  intro card₄
  have hbegun : Begun env s card₁ := by
    have hprepare : (prepare env choose).Safe (cardActs fun _ => False) (fun _ => True)
        (fun result c => True ∧ ∀ s, result = .ok s → Begun env s c ∧ ∃ c', choose c' s.ini = .ok s.plan) card₀ :=
      prepare_safe (W := fun _ => True) ((recover_rested card₀).mono (fun _ h => h) fun _ _ h => ⟨trivial, h⟩)
        (fun _ _ _ _ _ => trivial) fun _ _ _ _ _ _ _ _ => trivial
    have hend := hprepare.run
    rw [hstart] at hend
    exact (hend.2 s rfl).1
  obtain ⟨hexact, hstaged⟩ := hbegun.exact hhash
  have hO : Aside env (Beyond card₁) := beyond_aside hbegun.hoc
  have hloader : s.stockState = stateOf env (card₁ .stockKip) s.plan.loader := by
    rw [hbegun.loader, hstock]
    rfl
  have hleft : (hbegun.tx hexact).Left (fun _ => False) (Beyond card₁) card₂ := by
    refine (transact_safe hO hbegun hexact hstaged (fun _ _ => rfl) fun hhoc => ?_).cut hstop
    rw [hstock] at hhoc
    cases hhoc
  have hrecover : ∀ c, (hbegun.tx hexact).Left (fun _ => False) (Beyond card₁) c →
      (recover env).Safe (cardActs fun _ => False) ((hbegun.tx hexact).Left (fun _ => False) (Beyond card₁))
        (fun result c' => (hbegun.tx hexact).Left (fun _ => False) (Beyond card₁) c' ∧
          (result = .ok ∨ result = .already → (hbegun.tx hexact).Settled (Beyond card₁) c')) c :=
    fun c hc => Tx.recover_left hO (stateOf_solid hbegun.kernel) (stateOf_solid hloader) hc
  have hsettled := (hrecover card₃ (Prog.Safe.cuts hrecover hleft hstops)).run.2 hdone
  refine ⟨?_, hsettled.outside⟩
  obtain ⟨committed, hini, hkernel, hkip⟩ := hsettled.state
  cases committed with
  | false => exact .inl ⟨hini.trans hbegun.ini.symm, hkernel.1, hkip.1⟩
  | true =>
    refine .inr ⟨hini, fixOf_new hhash (fun b hb => .inl ⟨_, hb⟩) ?_ hbegun.kernel hkernel,
      fixOf_new hhash (fun b hb => .inl ⟨_, hb⟩) ?_ hloader hkip⟩
    · exact .inr (.inr (.inr (.inl rfl)))
    · exact .inr (.inr (.inr (.inr rfl)))

/-- Not SHA-256, but it tells short files apart. -/
def padHash (b : Bytes) : Bytes := (UInt8.ofNat b.length :: (b ++ List.replicate 31 0)).take 32

theorem padHash_short {a b : Bytes} (ha : a.length ≤ 31) (hb : b.length ≤ 31) (h : padHash a = padHash b) : a = b := by
  rw [padHash, padHash, take_succ_cons, take_succ_cons, List.cons.injEq] at h
  have hlength : a.length = b.length := by
    have hsize := congrArg UInt8.toNat h.1
    rw [UInt8.toNat_ofNat', UInt8.toNat_ofNat', Nat.mod_eq_of_lt (by omega), Nat.mod_eq_of_lt (by omega)] at hsize
    exact hsize
  have hbegins := congrArg (List.take a.length) h.2
  rw [take_take, take_take, Nat.min_eq_left ha, take_left] at hbegins
  rw [hlength, take_left] at hbegins
  exact hbegins

def padEnv : Env where
  hash := padHash
  isHoc := fun _ => true
  matchesHoc := fun _ => true
  hash_length := by
    intro b
    rw [padHash, length_take, length_cons, length_append, length_replicate]
    omega
  isHoc_of_matches := fun _ h => h

/-- A card with an INI and nothing else, and an entry to be added to it. -/
def newCard : Card := Function.update (fun _ => none) .ini (some [1])

def newPlan (hoc : Bool) : Plan := ⟨hoc, [2], [3], .add [4] (by decide), by decide, by decide⟩

def newStart : Started := ⟨newPlan false, [1], .absent, .absent⟩

/-- The journal is written and the kernel is in its place. -/
def halfDone (s : Started) (card : Card) : Card :=
  let acts := cardActs fun _ => False
  let journaled := ((writeNew .journal (s.transaction padEnv).bytes).run acts card).2
  ((replaceFixed padEnv mesosphere s.plan.kernel s.kernelState).run acts journaled).2

theorem boot_setup_all_or_nothing_once :
    let card₁ := ((prepare padEnv fun _ _ => .ok (newPlan false)).run (cardActs fun _ => False) newCard).2
    let card₂ := halfDone newStart card₁
    let card₄ := ((recover padEnv).run (cardActs fun _ => False) card₂).2
    card₂ .mesosphere = some [3] ∧ ((card₄ .ini = card₁ .ini ∧ card₄ .mesosphere = card₁ .mesosphere ∧ card₄ .stockKip = card₁ .stockKip) ∨
      (card₄ .ini = some [1, 4] ∧ card₄ .mesosphere = some [3] ∧ card₄ .stockKip = some [2])) ∧
    ∀ p, p.outside = true → card₄ p = card₁ p := by
  refine ⟨rfl, boot_setup_all_or_nothing padEnv (fun _ _ => .ok (newPlan false)) newCard _ _ _ newStart rfl rfl ?_
    (Prog.cut_bind (writeNew .journal _) _ (Prog.cut_bind (replaceFixed padEnv mesosphere _ _) _
      (Prog.cut_now (fun _ _ => Or.inl rfl) _ _))) .refl (.inl rfl)⟩
  intro a b ha hb
  have hshort : ∀ b, Contents newStart
      ((prepare padEnv fun _ _ => .ok (newPlan false)).run (cardActs fun _ => False) newCard).2 b → b.length ≤ 31 := by
    rintro b (⟨p, hp⟩ | hb | hb | rfl | rfl)
    · cases p <;> cases hp <;> decide
    · exact Nat.le_trans hb.length_le (by decide)
    · exact Nat.le_trans hb.length_le (by decide)
    · decide
    · decide
  exact padHash_short (hshort a ha) (hshort b hb)

/-! Never stuck. -/

section Stuck

variable {Whole K : Bytes → Prop}

/-- A card on which no transaction is pending. -/
structure Idle (env : Env) (Whole K : Bytes → Prop) (card : Card) : Prop where
  journal : card .journal = none
  ini : ∃ b, card .ini = some b ∧ Whole b
  hoc : HocReady env card
  small : ∀ f ∈ targets, ∀ b, card f.path = some b ∨ card f.previous = some b → b.length ≤ payloadLimit
  staged : ∀ b, card .staged = some b → K b

theorem Idle.congr {c : Card} (h : Idle env Whole K card) (hhoc : HocReady env c)
    (hown : ∀ p, p = .journal ∨ p = .ini ∨ p = .staged → c p = card p)
    (hpaths : ∀ f ∈ targets, ∀ b, c f.path = some b ∨ c f.previous = some b →
      card f.path = some b ∨ card f.previous = some b) : Idle env Whole K c := by
  refine ⟨(hown _ (.inl rfl)).trans h.journal, ?_, hhoc, fun f hf b hb => h.small f hf b (hpaths f hf b hb), ?_⟩
  · rw [hown .ini (.inr (.inl rfl))]
    exact h.ini
  · rw [hown .staged (.inr (.inr rfl))]
    exact h.staged

theorem idle_calm : Calm env (Idle env Whole K) where
  journal := fun _ h => h.journal
  hoc := by
    refine ⟨fun _ h => h.hoc, fun c h hkip hprevious => ?_⟩
    refine h.congr (hocReady_aside.moved c h.hoc hkip hprevious) ?_ fun f hf b hb => ?_
    · rintro p (rfl | rfl | rfl) <;> rfl
    · rcases eq_of_target hf with rfl | rfl <;> exact hb
  committed := by
    intro c h
    refine h.congr (hocReady_aside.congr c _ h.hoc (.update c rfl none)) ?_ fun f hf b hb => ?_
    · rintro p (rfl | rfl | rfl) <;> rfl
    · rcases eq_of_target hf with rfl | rfl <;> exact hb
  small := fun f hf _ h b hb => h.small f hf b (.inl hb)
  previous := by
    intro f hf c h hnone b hb
    refine ⟨h.small f hf b (.inr hb), ?_⟩
    have hmoved : Beyond c ((Act.rename f.previous f.path).apply c) := by
      rcases eq_of_target hf with rfl | rfl
      · exact Act.Inside.apply (a := .rename .stockPrevious .stockKip) ⟨rfl, rfl⟩ c
      · exact Act.Inside.apply (a := .rename .mesospherePrevious .mesosphere) ⟨rfl, rfl⟩ c
    refine h.congr (hocReady_aside.congr c _ h.hoc hmoved) ?_ fun g hg b hb => ?_
    · rcases eq_of_target hf with rfl | rfl
      · rintro p (rfl | rfl | rfl) <;> rfl
      · rintro p (rfl | rfl | rfl) <;> rfl
    · -- only what was beside the file is in its place now
      rcases eq_of_target hf with rfl | rfl <;> rcases eq_of_target hg with rfl | rfl <;>
        rcases hb with hb | hb <;> first | exact .inl hb | exact .inr hb | cases hb

theorem Idle.staging {W : Bytes → Prop} {c : Card} (h : Idle env Whole K card) (hstaging : Staging W card c)
    (hW : ∀ b, W b → K b) : Idle env Whole K c := by
  refine ⟨(hstaging.keep rfl).trans h.journal, ?_, hocReady_aside.congr card c h.hoc hstaging.beyond, ?_, ?_⟩
  · rw [hstaging.keep (p := .ini) rfl]
    exact h.ini
  · intro f hf b hb
    have hpath : f.path.scratch = false ∧ f.previous.beside = true := by
      rcases eq_of_target hf with rfl | rfl <;> exact ⟨rfl, rfl⟩
    rw [hstaging.keep hpath.1] at hb
    rcases hb with hb | hb
    · exact h.small f hf b (.inl hb)
    · rcases hstaging.previous hpath.2 with hprevious | hprevious
      · exact h.small f hf b (.inr (hprevious.symm.trans hb))
      · cases hprevious.symm.trans hb
  · intro b hb
    rcases hstaging .staged with hkept | hbackup | hupdate | ⟨-, w, hw, hWw⟩ | ⟨hbeside, -⟩
    · exact h.staged b (hkept.symm.trans hb)
    · cases hbackup
    · cases hupdate
    · rw [Option.some.inj (hb.symm.trans hw)]
      exact hW w hWw
    · cases hbeside

/-- A transaction between complete INIs, on files that can be read. -/
structure Tx.Sound (x : Tx env) (Whole : Bytes → Prop) : Prop where
  before : Whole x.started.ini
  after : Whole x.started.output
  kernel : ∀ b, x.kernel.old = some b ∨ x.kernel.beside = some b → b.length ≤ payloadLimit
  loader : ∀ b, x.loader.old = some b ∨ x.loader.beside = some b → b.length ≤ payloadLimit

/-- However a transaction ends, the files of a target are among those it had and the new one. -/
theorem Fix.Done.files {x : Fix} (h : x.Done f committed card) (hsmall : x.Small)
    (hold : ∀ b, x.old = some b ∨ x.beside = some b → b.length ≤ payloadLimit) {b : Bytes}
    (hb : card f.path = some b ∨ card f.previous = some b) : b.length ≤ payloadLimit := by
  cases committed with
  | false =>
    rw [Fix.Done, if_neg Bool.false_ne_true, Fix.Back] at h
    rw [h.1, h.2] at hb
    rcases hb with hb | hb
    · exact hold b (.inl hb)
    · split at hb
      · cases hb
      · exact hold b (.inr hb)
  | true =>
    rw [Fix.Done, if_pos rfl, Fix.Fresh] at h
    split at h
    · rw [h.1, h.2] at hb
      rcases hb with hb | hb
      · exact Option.some.inj hb ▸ hsmall.new
      · exact hold b (.inl hb)
    · rw [h.1, h.2] at hb
      exact hold b hb

theorem Tx.Settled.idle {c : Card} (h : x.Settled (HocReady env) c) (hsound : x.Sound Whole)
    (hK : ∀ w, Whole w → K w) : Idle env Whole K c := by
  obtain ⟨committed, hini, hkernel, hloader⟩ := h.state
  refine ⟨h.journal, ⟨_, hini, ?_⟩, h.outside, fun f hf b hb => ?_, fun b hb => ?_⟩
  · cases committed with
    | false => exact hsound.before
    | true => exact hsound.after
  · rcases eq_of_target hf with rfl | rfl
    · exact hloader.files x.loader_small hsound.loader hb
    · exact hkernel.files x.kernel_small hsound.kernel hb
  · rw [h.staged b hb]
    exact hK _ hsound.after

/-- The journal and the INI that a recovery writes are not torn. -/
def uncut (p : Path) : Prop := p = .journal ∨ p = .ini

def Fine (env : Env) (Whole K : Bytes → Prop) (c : Card) : Prop :=
  Idle env Whole K c ∨ ∃ x : Tx env, x.Sound Whole ∧ x.Pending uncut (HocReady env) c

theorem recover_fine (hK : ∀ w, Whole w → K w) (h : Fine env Whole K card) :
    (recover env).Safe (cardActs uncut) (Fine env Whole K)
      (fun result c => (result = .ok ∨ result = .already) ∧ Idle env Whole K c) card := by
  rcases h with hidle | ⟨x, hsound, hpending⟩
  · exact (recover_calm idle_calm hidle).mono (fun _ hc => .inl hc) fun _ _ hc => ⟨.inl hc.1, hc.2⟩
  · refine (Tx.recover_pending hocReady_aside hpending).mono (fun c hc => ?_) fun result c hc => ?_
    · rcases hc with hc | hc
      · exact .inr ⟨x, hsound, hc⟩
      · exact .inl (hc.idle hsound hK)
    · rcases hc with ⟨hresult, hc⟩ | ⟨htorn, -⟩
      · exact ⟨hresult, hc.idle hsound hK⟩
      · exact absurd (.inr rfl) htorn

/-- An INI that is made of a complete one is complete. -/
def Completes (Whole : Bytes → Prop) (choose : Card → Bytes → Except Result Plan) : Prop :=
  ∀ c ini plan, choose c ini = .ok plan → Whole ini → Whole (plan.change.output ini)

theorem install_fine {choose : Card → Bytes → Except Result Plan} (hchoose : Completes Whole choose)
    (hhash : CollisionFree env K) (hK : ∀ w b, Whole w → b <+: w → K b) (h : Fine env Whole K card) :
    (install env choose).Safe (cardActs uncut) (Fine env Whole K) (fun _ => Fine env Whole K) card := by
  have hself : ∀ w, Whole w → K w := fun w hw => hK w w hw (prefix_refl w)
  have idle_of : ∀ c, Fine env Whole K c → c .journal = none → Idle env Whole K c := by
    rintro c (hidle | ⟨x, -, hpending⟩) hjournal
    · exact hidle
    · cases hjournal.symm.trans hpending.journal
  have hrecover := ((recover_fine hself h).and (recover_rested card)).mono (fun _ hc => hc.1)
    fun _ _ hc => (⟨.inl hc.1.2, hc.2⟩ : Fine env Whole K _ ∧ (_ → Rested _))
  refine (prepare_safe (W := K) hrecover ?_ ?_).bind fun result c hc => ?_
  · exact fun c c' hc hrest hstaging => .inl ((idle_of c hc hrest.journal).staging hstaging fun _ hb => hb)
  · intro c ini plan hc hrest hini hplan n
    obtain ⟨b, hb, hwhole⟩ := (idle_of c hc hrest.journal).ini
    rw [Option.some.inj (hb.symm.trans hini)] at hwhole
    exact hK _ _ (hchoose c ini plan hplan hwhole) (List.take_prefix ..)
  obtain ⟨hfine, hbegun⟩ := hc
  cases result with
  | error r => exact ⟨hfine, hfine⟩
  | ok s =>
    obtain ⟨hbegun, c', hplan⟩ := hbegun s rfl
    have hidle := idle_of c hfine hbegun.journal
    obtain ⟨b, hb, hbefore⟩ := hidle.ini
    rw [Option.some.inj (hb.symm.trans hbegun.ini)] at hbefore
    have hafter : Whole s.output := hchoose c' s.ini s.plan hplan hbefore
    have hexact : IniExact env s := by
      refine fun a b ha hb => hhash a b ?_ ?_
      · rcases ha with ha | ha
        · exact hK _ a hbefore ha
        · exact hK _ a hafter ha
      · rcases hb with rfl | rfl
        · exact hself _ hbefore
        · exact hself _ hafter
    have hstaged : c .staged = some s.output := by
      obtain ⟨b, hb, hsame⟩ := hbegun.staged
      rw [hb, hhash b _ (hidle.staged b hb) (hself _ hafter) (of_decide_eq_true hsame).2]
    have hsound : (hbegun.tx hexact).Sound Whole :=
      ⟨hbefore, hafter, fun b hb => hidle.small mesosphere mesosphere_target b hb,
        fun b hb => hidle.small stock stock_target b hb⟩
    have left_fine : ∀ c', (hbegun.tx hexact).Left uncut (HocReady env) c' → Fine env Whole K c' := by
      rintro c' ((hpending | hsettled) | ⟨htorn, -⟩)
      · exact .inr ⟨_, hsound, hpending⟩
      · exact .inl (hsettled.idle hsound hself)
      · exact absurd (.inl rfl) htorn
    exact (transact_safe hocReady_aside hbegun hexact hstaged hidle.hoc
      fun _ _ hc => replaceHoc_ready s.plan.loader_small hc).mono left_fine fun _ => left_fine

end Stuck

/-- An install or a recovery that is stopped somewhere. -/
def Interrupted (env : Env) (Whole : Bytes → Prop) (card card' : Card) : Prop :=
  (recover env).Cut (cardActs uncut) card card' ∨
    ∃ choose, Completes Whole choose ∧ (install env choose).Cut (cardActs uncut) card card'

/-- The complete INIs and their parts, and what was staged at first. -/
def Known (Whole : Bytes → Prop) (card : Card) (b : Bytes) : Prop :=
  card .staged = some b ∨ ∃ w, Whole w ∧ b <+: w

def newChoice (hoc : Bool) (_ : Card) (ini : Bytes) : Except Result Plan :=
  if ini = [1] then .ok (newPlan hoc) else .error .unsupported

end Autorun.Setup
