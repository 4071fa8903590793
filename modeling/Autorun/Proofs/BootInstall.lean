import Autorun.Proofs.BootHoc

namespace Autorun.Setup

open Autorun.Lib Function List

variable {env : Env} {whole : Path → Prop} {O : Card → Prop} {card : Card} {s : Started}

/-! The transaction that an install starts. -/

variable {data : Bytes} {file : Option Bytes}

theorem stateOf_same (h : stateOf env file data = .same) :
    ∃ b, file = some b ∧ b.length ≤ payloadLimit ∧ sameFile env b data = true := by
  unfold stateOf at h
  cases hread : readOf file payloadLimit with
  | data b =>
    obtain ⟨hfile, hsmall⟩ := readOf_data hread
    rw [hread] at h
    dsimp only at h
    split at h
    case isTrue hsame => exact ⟨b, hfile, hsmall, hsame⟩
    case isFalse => cases h
  | error =>
    rw [hread] at h
    cases h
  | missing =>
    rw [hread] at h
    cases h

theorem stateOf_old (h : stateOf env file data ≠ .unreadable) :
    (∀ b, file = some b → b.length ≤ payloadLimit) ∧ (stateOf env file data = .absent → file = none) ∧
      (stateOf env file data = .differs → file.isSome) := by
  unfold stateOf at h ⊢
  cases hread : readOf file payloadLimit with
  | error =>
    rw [hread] at h
    exact absurd rfl h
  | missing =>
    rw [readOf_missing hread]
    exact ⟨fun b hb => (by cases hb), fun _ => rfl, fun hdiffers => by cases hdiffers⟩
  | data b =>
    obtain ⟨rfl, hsmall⟩ := readOf_data hread
    refine ⟨fun b' hb' => Option.some.inj hb' ▸ hsmall, fun habsent => ?_, fun _ => rfl⟩
    dsimp only at habsent
    split at habsent <;> cases habsent

/-- What becomes of a target for which `fixed_state` has answered. -/
def fixOf (card : Card) (f : Fixed) (new : Bytes) (state : FixedState) : Fix :=
  ⟨card f.path, card f.previous, new, decide (state ≠ .same)⟩

/-- The answer of `fixed_state`, which is not asked for the stock loader when HOC is installed. -/
def Answers (env : Env) (card : Card) (f : Fixed) (new : Bytes) (state : FixedState) : Prop :=
  state ≠ .unreadable ∧ (state = .same ∨ state = stateOf env (card f.path) new) ∧
    (state ≠ .same → card f.previous = none)

section Answers

variable {f : Fixed} {new : Bytes} {state : FixedState} (h : Answers env card f new state)
include h

theorem Answers.small (hnew : new.length ≤ payloadLimit) : (fixOf card f new state).Small := by
  refine ⟨fun hchanged => ?_, hnew⟩
  obtain ⟨hread, hstate | hstate, -⟩ := h
  · exact absurd hstate (of_decide_eq_true hchanged)
  · rw [hstate] at hread
    exact (stateOf_old hread).1

theorem Answers.existed (hchanged : (fixOf card f new state).changed = true) :
    (fixOf card f new state).old.isSome = decide (state = .differs) := by
  obtain ⟨hread, hstate, -⟩ := h
  have hne : state ≠ .same := of_decide_eq_true hchanged
  replace hstate := hstate.resolve_left hne
  have hold := stateOf_old (hstate ▸ hread)
  cases hcase : state with
  | unreadable => exact absurd hcase hread
  | same => exact absurd hcase hne
  | absent =>
    have hnone : card f.path = none := hold.2.1 (hstate.symm.trans hcase)
    rw [fixOf, hnone]
    rfl
  | differs =>
    have hsome : (card f.path).isSome := hold.2.2 (hstate.symm.trans hcase)
    exact hsome

theorem Answers.begun {c : Card} (hprevious : c f.previous = card f.previous) :
    (fixOf card f new state).Begun f c state := by
  have hread := h.1
  have hclear := h.2.2
  have hexisted := h.existed
  cases state with
  | unreadable => exact absurd rfl hread
  | same => exact ⟨rfl, hprevious⟩
  | absent =>
    exact ⟨rfl, Option.isSome_eq_false_iff.mp (hexisted rfl) |> Option.isNone_iff_eq_none.mp,
      hprevious.trans (hclear (by decide))⟩
  | differs => exact ⟨rfl, hexisted rfl, hprevious.trans (hclear (by decide))⟩

theorem Answers.back : (fixOf card f new state).Back f card := by
  refine ⟨rfl, ?_⟩
  split
  case isTrue hchanged => exact h.2.2 (of_decide_eq_true hchanged)
  case isFalse => rfl

end Answers

theorem Begun.kernel_answers (h : Begun env s card) :
    Answers env card mesosphere s.plan.kernel s.kernelState :=
  ⟨h.kernel_read, .inr h.kernel, h.kernel_previous⟩

theorem Begun.loader_answers (h : Begun env s card) : Answers env card stock s.plan.loader s.stockState := by
  refine ⟨h.loader_read, ?_, h.loader_previous⟩
  have hloader := h.loader
  split at hloader
  · exact .inl hloader
  · exact .inr hloader

/-- No two contents that the INI can have have the same hash. -/
def IniExact (env : Env) (s : Started) : Prop :=
  ∀ a b, (a <+: s.ini ∨ a <+: s.output) → b = s.ini ∨ b = s.output → env.hash a = env.hash b → a = b

def Begun.tx (h : Begun env s card) (hexact : IniExact env s) : Tx env where
  started := s
  kernel := fixOf card mesosphere s.plan.kernel s.kernelState
  loader := fixOf card stock s.plan.loader s.stockState
  kernel_small := h.kernel_answers.small s.plan.kernel_small
  loader_small := h.loader_answers.small s.plan.loader_small
  kernel_changed := rfl
  loader_changed := rfl
  kernel_existed := h.kernel_answers.existed
  loader_existed := h.loader_answers.existed
  before_small := h.before_small
  after_small := h.after_small
  exact := hexact

namespace Tx

variable {x : Tx env}

def Short (O : Card → Prop) (c : Card) : Prop := O c ∧ ∃ j, c .journal = some j ∧ j.length < 72

def Left (x : Tx env) (whole : Path → Prop) (O : Card → Prop) (c : Card) : Prop :=
  (x.Pending whole O c ∨ x.Settled O c) ∨ (¬ whole .journal ∧ Short O c)

/-- The targets are in their places and the INI is next. -/
structure Placed (x : Tx env) (O : Card → Prop) (c : Card) : Prop extends x.Held O c where
  ini : c .ini = some x.started.ini
  fresh : x.Fresh c
  staged : c .staged = some x.started.output
  committed : c .committed = none

variable {c : Card}

theorem Placed.pending (h : x.Placed O c) : x.Pending whole O c :=
  ⟨h.toHeld, .old h.ini h.fresh.1.any h.fresh.2.any fun _ _ => h.fresh⟩

theorem Pending.left (h : x.Pending whole O c) : x.Left whole O c := .inl (.inl h)

theorem recover_last (hO : Aside env O) (h : x.Pending whole O c) (answer : Result → Result) :
    ((recover env).bind fun result => .ret (answer result)).Safe (cardActs whole) (x.Left whole O)
      (fun _ => x.Left whole O) c := by
  refine ((recover_pending hO h).mono (fun _ hc => .inl hc) fun _ _ hc => hc).bind fun result c' hc' => ?_
  rcases hc' with ⟨-, hsettled⟩ | ⟨-, -, hpending⟩
  · exact ⟨.inl (.inr hsettled), .inl (.inr hsettled)⟩
  · exact ⟨hpending.left, hpending.left⟩

theorem appendCommit_safe (hO : Aside env O) (h : x.Placed O c) {entry : Bytes} (hne : entry ≠ [])
    (hchange : x.started.plan.change = .add entry hne) :
    (appendCommit x.started.output x.started.ini.length).Safe (cardActs whole) (x.Left whole O)
      (fun ok c' => ok = true ∧ x.Pending whole O c' ∧ ¬ x.Same) c := by
  have houtput : x.started.output = x.started.ini ++ entry := by
    rw [Started.output, hchange]
    rfl
  have hentry : 0 < entry.length := length_pos_iff.mpr hne
  have hlength : x.started.output.length = x.started.ini.length + entry.length := by
    rw [houtput, length_append]
  have hnew : ¬ x.Same := by
    intro hsame
    have := congrArg List.length (x.eq_of_same hsame)
    omega
  have hdrop : x.started.output.drop x.started.ini.length = entry := by rw [houtput, drop_left]
  unfold appendCommit
  rw [Prog.Safe, h.ini]
  dsimp only
  rw [if_pos rfl, hdrop]
  refine ⟨stop_atomic h.pending.left ?_, ?_, fun _ hfail => hfail.elim⟩
  · rintro c' ⟨n, hn, rfl⟩
    rw [h.ini, Option.map_some]
    have hheld := h.toHeld.withIni hO (some (x.started.ini ++ entry.take n))
    have hfresh := h.fresh.withIni (some (x.started.ini ++ entry.take n))
    cases n with
    | zero =>
      refine (show x.Pending whole O _ from ⟨hheld, .old ?_ hfresh.1.any hfresh.2.any fun _ _ => hfresh⟩).left
      rw [update_self, take_zero, append_nil]
    | succ n =>
      refine (show x.Pending whole O _ from ⟨hheld, .appended (x.started.ini.length + (n + 1)) ?_ ?_ ?_ ?_ ?_ ?_
        hfresh⟩).left
      · rw [hchange]
        rfl
      · rw [houtput]
        exact prefix_append ..
      · omega
      · omega
      · rw [update_self, houtput, take_length_add_append]
      · exact h.staged
  · have hdone : (cardActs whole).apply (.append .ini entry) c = update c .ini (some x.started.output) := by
      change update c .ini ((c .ini).map (· ++ entry)) = _
      rw [h.ini, houtput]
      rfl
    have hpending : x.Pending whole O (update c .ini (some x.started.output)) :=
      ⟨h.toHeld.withIni hO _, .new (update_self ..) hnew (h.fresh.withIni _)⟩
    rw [hdone]
    exact ⟨hpending.left, rfl, hpending, hnew⟩

theorem replaceCommit_safe (hO : Aside env O) (h : x.Placed O c) (hnew : ¬ x.Same)
    (hupdate : x.started.plan.change.isUpdate = true) :
    replaceCommit.Safe (cardActs whole) (x.Left whole O)
      (fun ok c' => ok = true ∧ x.Pending whole O c' ∧ ¬ x.Same) c := by
  have hgone : x.Pending whole O (update c .ini none) :=
    ⟨h.toHeld.withIni hO _, .removed hupdate (update_self ..) hnew (h.fresh.withIni _)⟩
  unfold replaceCommit
  refine unlink_check (h.ini ▸ rfl) h.pending.left ?_
  have hstaged : update c .ini none .staged = some x.started.output := h.staged
  have hthere : (update c .ini none .staged).isSome := by
    rw [hstaged]
    rfl
  rw [Prog.Safe, if_pos hthere]
  have hfresh := (h.fresh.withIni none)
  have hpending : x.Pending whole O ((Act.rename .staged .ini).apply (update c .ini none)) := by
    refine ⟨hgone.toHeld.congr (hO.congr _ _ hgone.outside fun p hp => ?_) rfl (fun update => ?_) hgone.marker,
      .new hstaged hnew ⟨hfresh.1.congr rfl rfl, hfresh.2.congr rfl rfl⟩⟩
    · exact Act.Inside.apply (a := .rename .staged .ini) ⟨rfl, rfl⟩ _ p hp
    · cases update <;> rfl
  exact act_safe (fun _ => id) hgone.left ⟨hpending.left, rfl, hpending, hnew⟩

theorem marker_safe (hO : Aside env O) (h : x.Placed O c) :
    (writeNew .committed (env.hash x.started.output)).Safe (cardActs whole) (x.Left whole O)
      (fun ok c' => ok = true ∧ x.Pending whole O c') c := by
  have hmarked : ∀ file : Bytes, file.length ≤ 32 →
      x.Pending whole O (update c .committed (some file)) := by
    intro file hfile
    have hfresh : x.Fresh (update c .committed (some file)) :=
      ⟨h.fresh.1.congr rfl rfl, h.fresh.2.congr rfl rfl⟩
    refine ⟨h.toHeld.congr (hO.congr _ _ h.outside (.update c rfl _)) rfl (fun update => ?_) fun b hb => ?_,
      .old h.ini hfresh.1.any hfresh.2.any fun _ _ => hfresh⟩
    · cases update <;> rfl
    · rw [update_self, Option.some.injEq] at hb
      exact hb ▸ hfile
  have hlength := env.hash_length x.started.output
  have hdone := hmarked _ (Nat.le_of_eq hlength)
  refine write_safe h.committed h.pending.left (fun _ n _ => (hmarked _ ?_).left) hdone.left ⟨rfl, hdone⟩
  rw [length_take]
  omega

end Tx

section Transact

variable {x : Tx env}

variable {state : FixedState} {c : Card}

theorem place_kernel (hO : Aside env O) (h : x.Ending O false c) (hold : c .mesosphere = x.kernel.old)
    (hbegun : x.kernel.Begun mesosphere c state) :
    (replaceFixed env mesosphere x.kernel.new state).Safe (cardActs whole) (x.Left whole O)
      (fun ok c' => ok = true ∧ x.Ending O false c' ∧ x.kernel.Fresh mesosphere c' ∧ mesosphere.Only c c') c :=
  (replace_fresh mesosphere_distinct x.kernel_small hold hbegun).mono
    (fun _ hc => (h.withKernel hO hc.2 hc.1).pending.left)
    fun _ _ hc => ⟨hc.1, h.withKernel hO hc.2.2 hc.2.1.any, hc.2⟩

variable {hoc : Bool}

theorem place_loader (hO : Aside env O) (h : x.Ending O false c)
    (hkernel : x.kernel.Fresh mesosphere c) (hold : c .stockKip = x.loader.old)
    (hbegun : x.loader.Begun stock c state) (hhoc : hoc = true → state = .same)
    (hstaged : c .staged = some x.started.output) (hcommitted : c .committed = none) :
    (if true ∧ ¬ hoc then replaceFixed env stock x.loader.new state else .ret true).Safe (cardActs whole)
      (x.Left whole O) (fun ok c' => ok = true ∧ x.Placed O c') c := by
  cases hoc with
  | true =>
    rw [if_neg fun hc => hc.2 rfl]
    rw [hhoc rfl] at hbegun
    have hfresh : x.loader.Fresh stock c := by
      rw [Fix.Fresh, if_neg (Bool.eq_false_iff.mp hbegun.1)]
      exact ⟨hold, hbegun.2⟩
    exact ⟨h.pending.left, rfl, h.toHeld, h.ini, ⟨hkernel, hfresh⟩, hstaged, hcommitted⟩
  | false =>
    rw [if_pos ⟨rfl, Bool.false_ne_true⟩]
    refine (replace_fresh stock_distinct x.loader_small hold hbegun).mono
      (fun _ hc => (h.withLoader hO hc.2 hc.1).pending.left) fun ok c' hc => ?_
    obtain ⟨hok, hfresh, honly⟩ := hc
    have hend := h.withLoader hO honly hfresh.any
    refine ⟨hok, hend.toHeld, hend.ini, ⟨hkernel.congr ?_ ?_, hfresh⟩, ?_, ?_⟩
    · exact honly _ (by decide) (by decide) (by decide)
    · exact honly _ (by decide) (by decide) (by decide)
    · exact (honly.own stock_target rfl).trans hstaged
    · exact (honly.own stock_target rfl).trans hcommitted

theorem place_hoc (h : x.Placed O c) {loader : Bytes}
    (hhoc : hoc = true → ∀ c, O c → (replaceHoc env loader).Safe (cardActs whole)
      (fun c' => O c' ∧ Inside c c') (fun _ c' => O c' ∧ Inside c c') c) :
    (if hoc then replaceHoc env loader else .ret true).Safe (cardActs whole) (x.Left whole O)
      (fun _ c' => x.Placed O c') c := by
  have hpending : x.Pending whole O c := h.pending
  have hplaced : ∀ c', O c' → Inside c c' → x.Placed O c' := by
    intro c' hc' hinside
    exact ⟨(hpending.congr hc' hinside).toHeld, (hinside _ rfl).trans h.ini,
      ⟨h.fresh.1.congr (hinside _ rfl) (hinside _ rfl), h.fresh.2.congr (hinside _ rfl) (hinside _ rfl)⟩,
      (hinside _ rfl).trans h.staged, (hinside _ rfl).trans h.committed⟩
  cases hoc with
  | false => exact ⟨h.pending.left, h⟩
  | true =>
    exact (hhoc rfl c h.outside).mono (fun c' hc' => (hplaced c' hc'.1 hc'.2).pending.left)
      fun _ c' hc' => hplaced c' hc'.1 hc'.2

/-- The INI is published; when it stays the same the marker is. -/
theorem publish_safe (hO : Aside env O) (h : x.Placed O c) :
    ((match x.started.plan.change with
        | .add .. => appendCommit x.started.output x.started.ini.length
        | .update _ => if env.hash x.started.ini = env.hash x.started.output then .ret true else replaceCommit).bind
      fun published =>
        if !published then conclude env
        else (if env.hash x.started.ini = env.hash x.started.output
            then writeNew .committed (env.hash x.started.output) else .ret true).bind fun complete =>
          if !complete then giveUp env else conclude env).Safe (cardActs whole) (x.Left whole O)
      (fun _ => x.Left whole O) c := by
  have hpublished : (match x.started.plan.change with
        | .add .. => appendCommit x.started.output x.started.ini.length
        | .update _ => if env.hash x.started.ini = env.hash x.started.output then .ret true else replaceCommit).Safe
      (cardActs whole) (x.Left whole O)
      (fun ok c' => ok = true ∧ ((x.Pending whole O c' ∧ ¬ x.Same) ∨ (x.Placed O c' ∧ x.Same))) c := by
    cases hchange : x.started.plan.change with
    | add entry hne =>
      exact (Tx.appendCommit_safe hO h hne hchange).mono (fun _ hc => hc) fun _ _ hc => ⟨hc.1, .inl hc.2⟩
    | update output =>
      dsimp only
      split
      case isTrue hsame => exact ⟨h.pending.left, rfl, .inr ⟨h, hsame⟩⟩
      case isFalse hnew =>
        exact (Tx.replaceCommit_safe hO h hnew (by rw [hchange]; rfl)).mono (fun _ hc => hc)
          fun _ _ hc => ⟨hc.1, .inl hc.2⟩
  refine hpublished.bind fun published c' hc' => ?_
  obtain ⟨rfl, ⟨hpending, hnew⟩ | ⟨hplaced, hsame⟩⟩ := hc'
  · rw [if_neg (by decide), if_neg (show ¬ env.hash x.started.ini = env.hash x.started.output from hnew)]
    exact Tx.recover_last hO hpending _
  · rw [if_neg (by decide), if_pos (show env.hash x.started.ini = env.hash x.started.output from hsame)]
    refine (Tx.marker_safe hO hplaced).bind fun complete c'' hc'' => ?_
    rw [hc''.1, if_neg (by decide)]
    exact Tx.recover_last hO hc''.2 _

end Transact

theorem transact_safe (hO : Aside env O) (h : Begun env s card) (hexact : IniExact env s)
    (hstaged : card .staged = some s.output) (hcard : O card)
    (hhoc : s.plan.hoc = true → ∀ c, O c → (replaceHoc env s.plan.loader).Safe (cardActs whole)
      (fun c' => O c' ∧ Inside c c') (fun _ c' => O c' ∧ Inside c c') c) :
    (transact env s).Safe (cardActs whole) ((h.tx hexact).Left whole O) (fun _ => (h.tx hexact).Left whole O) card := by
  -- before the journal nothing has happened
  have hsettled : (h.tx hexact).Settled O card :=
    ⟨h.journal, fun b hb => (Option.some.inj (hstaged.symm.trans hb)).symm, hcard, false, h.ini,
      h.kernel_answers.back, h.loader_answers.back⟩
  have hlength := (transaction_bytes env s).1
  have hout : ∀ file, O (update card .journal file) :=
    fun file => hO.congr _ _ hcard (.update card rfl file)
  have hend : (h.tx hexact).Ending O false (update card .journal (some (s.transaction env).bytes)) := by
    refine ⟨⟨update_self .., ?_, fun b hb => ?_, hout _⟩, h.ini, ?_, ?_, fun _ _ hmarker => ?_⟩
    · rw [update_of_ne (by cases (h.tx hexact).started.plan.change.isUpdate <;> decide)]
      exact h.backup
    · cases h.committed.symm.trans hb
    · exact (h.kernel_answers.back.any).congr rfl rfl
    · exact (h.loader_answers.back.any).congr rfl rfl
    · cases h.committed.symm.trans hmarker
  unfold transact
  refine write_check h.journal (.inl (.inr hsettled)) (fun htorn n hn => .inr ⟨htorn, hout _, _,
    update_self .., ?_⟩) ?_
  · rw [length_take]
    omega
  refine (place_kernel hO hend rfl (h.kernel_answers.begun rfl)).bind fun kernel c1 hc1 => ?_
  obtain ⟨rfl, hend1, hkernel, honly⟩ := hc1
  have hloader : s.plan.hoc = true → s.stockState = .same := by
    intro hhoc'
    rw [h.loader, if_pos hhoc']
  refine (place_loader hO hend1 hkernel (honly _ (by decide) (by decide) (by decide))
    (h.loader_answers.begun (honly _ (by decide) (by decide) (by decide))) hloader
    ((honly.own mesosphere_target rfl).trans hstaged) ((honly.own mesosphere_target rfl).trans h.committed)).bind
      fun fixed c2 hc2 => ?_
  rw [hc2.1, if_neg (by decide)]
  refine (place_hoc hc2.2 hhoc).bind fun loader c3 hc3 => ?_
  cases loader with
  | false => exact Tx.recover_last hO hc3.pending _
  | true => exact publish_safe hO hc3

/-! The HOC loader. -/

theorem hocReady_aside : Aside env (HocReady env) where
  ready := fun _ h => h
  moved := by
    intro c h hkip hprevious
    refine ⟨fun b hb => (h.previous hkip b hb).1, fun hnone => ?_⟩
    rw [show (Act.rename .hocPrevious .hocKip).apply c .hocKip = c .hocPrevious from rfl] at hnone
    rw [hnone] at hprevious
    cases hprevious
  congr := by
    intro c c' h hbeyond
    refine ⟨?_, ?_⟩
    · rw [hbeyond .hocKip rfl]
      exact h.loader
    · rw [hbeyond .hocKip rfl, hbeyond .hocPrevious rfl]
      exact h.previous

theorem HocReady.of_loader {b : Bytes} (hkip : card .hocKip = some b) (hsmall : b.length ≤ payloadLimit) :
    HocReady env card := by
  refine ⟨fun b' hb' => ?_, fun hnone => ?_⟩
  · rw [← Option.some.inj (hkip.symm.trans hb')]
    exact hsmall
  · cases hkip.symm.trans hnone

/-- However `replace_hoc` is stopped, the HOC loader can be recovered. -/
theorem replaceHoc_ready {loader : Bytes} (hloader : loader.length ≤ payloadLimit) (h : HocReady env card) :
    (replaceHoc env loader).Safe (cardActs whole) (fun c => HocReady env c ∧ Inside card c)
      (fun _ c => HocReady env c ∧ Inside card c) card := by
  have hpart : ∀ file : Bytes, file.length ≤ payloadLimit → HocReady env (update card .hocKip (some file)) ∧
      Inside card (update card .hocKip (some file)) :=
    fun file hfile => ⟨.of_loader (update_self ..) hfile, (Inside.refl card).update rfl _⟩
  refine of_faulty (replaceHoc_safe ⟨h, .refl card⟩ (fun _ _ n hn => hpart _ ?_) (fun _ => hpart _ hloader)
    fun current _ hsmall hhoc => ⟨fun c hin hkip => ⟨.of_loader hkip hsmall, hin⟩,
      fun c hin hkip hprevious => ⟨⟨fun b hb => ?_, fun _ b hb => ?_⟩, hin⟩,
      fun c hin hkip _ => ⟨.of_loader hkip hloader, hin⟩⟩)
  · rw [length_take]
    omega
  · cases hkip.symm.trans hb
  · cases hprevious.symm.trans hb
    exact ⟨hsmall, hhoc⟩

end Autorun.Setup
