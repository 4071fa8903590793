import Autorun.Proofs.BootSteps

namespace Autorun.Setup

open Autorun.Lib Function List

variable {env : Env} {whole : Path → Prop} {P O : Card → Prop} {card card' : Card}

/-! The HOC loader, and the files that a transaction does not write. -/

/-- Files that the transaction itself leaves alone. -/
def Path.outside : Path → Bool
  | .hocKip | .hocStaged | .hocPrevious | .other _ => true
  | _ => false

def Inside (card card' : Card) : Prop := ∀ p, p.outside = false → card' p = card p

def Beyond (card card' : Card) : Prop := ∀ p, p.outside = true → card' p = card p

theorem Inside.refl (card : Card) : Inside card card := fun _ _ => rfl

variable {p : Path}

theorem Beyond.update (card : Card) (hp : p.outside = false) (file : Option Bytes) :
    Beyond card (update card p file) := by
  intro q hq
  have hne : q ≠ p := by
    rintro rfl
    rw [hp] at hq
    cases hq
  rw [update_of_ne hne]

def targets : List Fixed := [stock, mesosphere]

theorem stock_target : stock ∈ targets := mem_cons_self

theorem mesosphere_target : mesosphere ∈ targets := mem_cons_of_mem _ mem_cons_self

variable {f : Fixed}

theorem eq_of_target (hf : f ∈ targets) : f = stock ∨ f = mesosphere := by
  rcases mem_cons.mp hf with h | h
  · exact .inl h
  · exact .inr (mem_singleton.mp h)

def Path.own : Path → Bool
  | .ini | .backup | .updateBackup | .staged | .journal | .committed => true
  | _ => false

theorem backupPath_own (update : Bool) : (backupPath update).own = true := by cases update <;> rfl

theorem Fixed.Only.apart (hf : f ∈ targets) (h : f.Only card card')
    (hp : p.own = true ∨ p.outside = true) : card' p = card p := by
  have hne : ∀ q : Path, q.own = false → q.outside = false → p ≠ q := by
    rintro q hown houtside rfl
    rw [hown, houtside] at hp
    simp at hp
  rcases eq_of_target hf with rfl | rfl
  · exact h p (hne _ rfl rfl) (hne _ rfl rfl) (hne _ rfl rfl)
  · exact h p (hne _ rfl rfl) (hne _ rfl rfl) (hne _ rfl rfl)

theorem Fixed.Only.own (h : f.Only card card') (hf : f ∈ targets) (hp : p.own = true) :
    card' p = card p := h.apart hf (.inl hp)

theorem Fixed.Only.beyond (h : f.Only card card') (hf : f ∈ targets) : Beyond card card' :=
  fun _ hp => h.apart hf (.inr hp)

structure HocReady (env : Env) (card : Card) : Prop where
  loader : ∀ b, card .hocKip = some b → b.length ≤ payloadLimit
  previous : card .hocKip = none → ∀ b, card .hocPrevious = some b → b.length ≤ payloadLimit ∧ env.isHoc b = true

/-- A condition that the HOC recovery keeps. -/
structure HocKept (env : Env) (O : Card → Prop) : Prop where
  ready : ∀ card, O card → HocReady env card
  moved : ∀ card, O card → card .hocKip = none → (card .hocPrevious).isSome →
    O ((Act.rename .hocPrevious .hocKip).apply card)

structure Aside (env : Env) (O : Card → Prop) : Prop extends HocKept env O where
  congr : ∀ card card', O card → Beyond card card' → O card'

theorem recoverHoc_safe (hO : HocKept env O) (hcard : O card) (hP : ∀ c, O c → Inside card c → P c) :
    (recoverHoc env).Safe (cardActs whole) P (fun ok c => ok = true ∧ O c ∧ Inside card c) card := by
  have hnow := hP card hcard (.refl card)
  have hready := hO.ready card hcard
  unfold recoverHoc
  refine read_safe ?_
  cases hkip : card .hocKip with
  | some b =>
    rw [readOf_some (hready.loader b hkip)]
    exact ⟨hnow, rfl, hcard, .refl card⟩
  | none =>
    refine read_safe ?_
    cases hprevious : card .hocPrevious with
    | none => exact ⟨hnow, rfl, hcard, .refl card⟩
    | some b =>
      obtain ⟨hsmall, hhoc⟩ := hready.previous hkip b hprevious
      rw [readOf_some hsmall]
      dsimp only
      rw [if_pos hhoc]
      have hsome : (card .hocPrevious).isSome := by
        rw [hprevious]
        rfl
      have hmoved := hO.moved card hcard hkip hsome
      have hinside : Inside card ((Act.rename .hocPrevious .hocKip).apply card) := by
        intro p hp
        have hne1 : p ≠ .hocPrevious := by
          rintro rfl
          cases hp
        have hne2 : p ≠ .hocKip := by
          rintro rfl
          cases hp
        rw [Act.apply, update_of_ne hne1, update_of_ne hne2]
      exact move_safe hsome hkip hnow (hP _ hmoved hinside) ⟨rfl, hmoved, hinside⟩

/-! A recovery without a journal. -/

/-- What a recovery without a journal needs, and keeps. -/
structure Calm (env : Env) (P : Card → Prop) : Prop where
  journal : ∀ c, P c → c .journal = none
  hoc : HocKept env P
  committed : ∀ c, P c → P (update c .committed none)
  small : ∀ f ∈ targets, ∀ c, P c → ∀ b, c f.path = some b → b.length ≤ payloadLimit
  previous : ∀ f ∈ targets, ∀ c, P c → c f.path = none → ∀ b, c f.previous = some b →
    b.length ≤ payloadLimit ∧ P ((Act.rename f.previous f.path).apply c)

theorem recoverMissingFixed_safe (h : Calm env P) (hcard : P card) (hf : f ∈ targets) :
    (recoverMissingFixed f).Safe (cardActs whole) P (fun ok c => ok = true ∧ P c) card := by
  unfold recoverMissingFixed
  refine read_safe ?_
  cases hpath : card f.path with
  | some b =>
    rw [readOf_some (h.small f hf card hcard b hpath)]
    exact ⟨hcard, rfl, hcard⟩
  | none =>
    refine read_safe ?_
    cases hprevious : card f.previous with
    | none => exact ⟨hcard, rfl, hcard⟩
    | some b =>
      obtain ⟨hsmall, hmoved⟩ := h.previous f hf card hcard hpath b hprevious
      rw [readOf_some hsmall]
      refine move_safe ?_ hpath hcard hmoved ⟨rfl, hmoved⟩
      rw [hprevious]
      rfl

theorem recover_calm (h : Calm env P) (hcard : P card) :
    (recover env).Safe (cardActs whole) P (fun result c => result = .ok ∧ P c) card := by
  unfold recover
  refine Prog.Safe.check (recoverHoc_safe h.hoc hcard fun c hc _ => hc) fun c hc => read_safe ?_
  rw [h.journal c hc.1]
  refine remove_check hc.1 ?_
  refine Prog.Safe.check (recoverMissingFixed_safe h (h.committed c hc.1) stock_target) fun c1 hc1 => ?_
  exact Prog.Safe.check (recoverMissingFixed_safe h hc1 mesosphere_target) fun c2 hc2 => ⟨hc2, rfl, hc2⟩

/-! A transaction. -/

theorem flags_kernel (kernel loader : FixedState) :
    decide ((flagsOf 1 2 kernel ||| flagsOf 4 8 loader) &&& 1 ≠ 0) = decide (kernel ≠ .same) ∧
      decide ((flagsOf 1 2 kernel ||| flagsOf 4 8 loader) &&& 2 ≠ 0) = decide (kernel = .differs) := by
  cases kernel <;> cases loader <;> decide

theorem flags_loader (kernel loader : FixedState) :
    decide ((flagsOf 1 2 kernel ||| flagsOf 4 8 loader) &&& 4 ≠ 0) = decide (loader ≠ .same) ∧
      decide ((flagsOf 1 2 kernel ||| flagsOf 4 8 loader) &&& 8 ≠ 0) = decide (loader = .differs) := by
  cases kernel <;> cases loader <;> decide

theorem flags_known (kernel loader : FixedState) :
    (flagsOf 1 2 kernel ||| flagsOf 4 8 loader) &&& 0xf0 = 0 := by
  cases kernel <;> cases loader <;> decide

theorem magic_length (update : Bool) : (magic update).length = 7 := by cases update <;> rfl

theorem ofBytes_bytes (t : Transaction) (hflags : t.flags &&& 0xf0 = 0) (hbefore : t.before.length = 32)
    (hafter : t.after.length = 32) : t.bytes.length = 72 ∧ Transaction.ofBytes t.bytes = some t := by
  obtain ⟨update, flags, before, after⟩ := t
  have hlength : (Transaction.bytes ⟨update, flags, before, after⟩).length = 72 := by
    rw [Transaction.bytes, length_append, magic_length, length_cons, length_append, hbefore, hafter]
  have hhashes : ∀ update, (Transaction.bytes ⟨update, flags, before, after⟩).drop 8 = before ++ after := by
    intro update
    cases update <;> rfl
  have hlast : ∀ update, (Transaction.bytes ⟨update, flags, before, after⟩).drop 40 = after := by
    intro update
    rw [show 40 = 8 + 32 from rfl, ← drop_drop, hhashes, drop_left' hbefore]
  refine ⟨hlength, ?_⟩
  cases update with
  | false =>
    rw [Transaction.ofBytes, if_pos ⟨hlength, .inr rfl, hflags⟩, hhashes, hlast, take_left' hbefore]
    rfl
  | true =>
    rw [Transaction.ofBytes, if_pos ⟨hlength, .inl rfl, hflags⟩, hhashes, hlast, take_left' hbefore]
    rfl

theorem transaction_bytes (env : Env) (s : Started) : (s.transaction env).bytes.length = 72 ∧
    Transaction.ofBytes (s.transaction env).bytes = some (s.transaction env) :=
  ofBytes_bytes _ (flags_known _ _) (env.hash_length _) (env.hash_length _)

/-- A transaction that was started: what becomes of each target, in the terms of its journal. -/
structure Tx (env : Env) where
  started : Started
  kernel : Fix
  loader : Fix
  kernel_small : kernel.Small
  loader_small : loader.Small
  kernel_changed : kernel.changed = decide (started.kernelState ≠ .same)
  loader_changed : loader.changed = decide (started.stockState ≠ .same)
  kernel_existed : kernel.changed = true → kernel.old.isSome = decide (started.kernelState = .differs)
  loader_existed : loader.changed = true → loader.old.isSome = decide (started.stockState = .differs)
  before_small : started.ini.length ≤ iniLimit
  after_small : started.output.length ≤ iniLimit
  /-- No two contents that `hekate_ipl.ini` can have on the way have the same hash. -/
  exact : ∀ a b, (a <+: started.ini ∨ a <+: started.output) → b = started.ini ∨ b = started.output →
    env.hash a = env.hash b → a = b

namespace Tx

variable (x : Tx env)

/-- Before and after are not told apart, so that a marker is needed. -/
def Same : Prop := env.hash x.started.ini = env.hash x.started.output

theorem eq_of_same (h : x.Same) : x.started.ini = x.started.output :=
  x.exact _ _ (.inl (prefix_refl _)) (.inr rfl) h

def Fresh (c : Card) : Prop := x.kernel.Fresh mesosphere c ∧ x.loader.Fresh stock c

/-- What stays until the journal is removed. -/
structure Held (O : Card → Prop) (c : Card) : Prop where
  journal : c .journal = some (x.started.transaction env).bytes
  backup : c (backupPath x.started.plan.change.isUpdate) = some x.started.ini
  marker : ∀ b, c .committed = some b → b.length ≤ 32
  outside : O c

/-- The recovery will take back what was done, or keep it. -/
structure Ending (O : Card → Prop) (committed : Bool) (c : Card) : Prop extends x.Held O c where
  ini : c .ini = some (if committed then x.started.output else x.started.ini)
  kernel : x.kernel.At mesosphere committed c
  loader : x.loader.At stock committed c
  quiet : committed = false → x.Same → c .committed ≠ some (env.hash x.started.output)

/-- What stops leave of `hekate_ipl.ini`, and what the targets are then. -/
inductive IniAt (whole : Path → Prop) (c : Card) : Prop
  | old (hini : c .ini = some x.started.ini) (hkernel : x.kernel.Any mesosphere c) (hloader : x.loader.Any stock c)
      (hsame : x.Same → c .committed = some (env.hash x.started.output) → x.Fresh c)
  | new (hini : c .ini = some x.started.output) (hnew : ¬ x.Same) (hfresh : x.Fresh c)
  | appended (n : Nat) (hadd : x.started.plan.change.isUpdate = false) (hbegins : x.started.ini <+: x.started.output)
      (hmore : x.started.ini.length < n) (hless : n < x.started.output.length)
      (hini : c .ini = some (x.started.output.take n)) (hstaged : c .staged = some x.started.output)
      (hfresh : x.Fresh c)
  | removed (hupdate : x.started.plan.change.isUpdate = true) (hini : c .ini = none) (hnew : ¬ x.Same) (hfresh : x.Fresh c)
  | cut (n : Nat) (htorn : ¬ whole .ini) (hupdate : x.started.plan.change.isUpdate = true)
      (hless : n < x.started.ini.length) (hini : c .ini = some (x.started.ini.take n)) (hnew : ¬ x.Same)
      (hfresh : x.Fresh c)

structure Pending (whole : Path → Prop) (O : Card → Prop) (c : Card) : Prop extends x.Held O c where
  state : x.IniAt whole c

structure Settled (O : Card → Prop) (c : Card) : Prop where
  journal : c .journal = none
  staged : ∀ b, c .staged = some b → b = x.started.output
  outside : O c
  state : ∃ committed, c .ini = some (if committed then x.started.output else x.started.ini) ∧
    x.kernel.Done mesosphere committed c ∧ x.loader.Done stock committed c

variable {x}

variable {committed : Bool}

theorem Ending.pending (h : x.Ending O committed card) : x.Pending whole O card := by
  refine ⟨h.toHeld, ?_⟩
  have hini := h.ini
  cases committed with
  | false => exact .old hini h.kernel h.loader fun hsame hmarker => absurd hmarker (h.quiet rfl hsame)
  | true =>
    by_cases hsame : x.Same
    · have heq : card .ini = some x.started.ini := by
        rw [hini, x.eq_of_same hsame]
        rfl
      exact .old heq (Fix.Fresh.any h.kernel) (Fix.Fresh.any h.loader) fun _ _ => ⟨h.kernel, h.loader⟩
    · exact .new hini hsame ⟨h.kernel, h.loader⟩

theorem Held.congr (h : x.Held O card) (hO : O card') (hjournal : card' .journal = card .journal)
    (hbackup : ∀ update, card' (backupPath update) = card (backupPath update))
    (hmarker : ∀ b, card' .committed = some b → b.length ≤ 32) : x.Held O card' :=
  ⟨hjournal.trans h.journal, (hbackup _).trans h.backup, hmarker, hO⟩

theorem Held.only {f : Fixed} (hO : Aside env O) (h : x.Held O card) (hf : f ∈ targets)
    (honly : f.Only card card') : x.Held O card' := by
  refine h.congr (hO.congr card card' h.outside (honly.beyond hf)) (honly.own hf rfl) (fun update => ?_) ?_
  · exact honly.own hf (backupPath_own update)
  · rw [honly.own hf rfl]
    exact h.marker

theorem Ending.withLoader (hO : Aside env O) (h : x.Ending O committed card)
    (honly : stock.Only card card') (hloader : x.loader.At stock committed card') :
    x.Ending O committed card' := by
  refine ⟨h.toHeld.only hO stock_target honly, (honly.own stock_target rfl).trans h.ini,
    h.kernel.congr (honly _ (by decide) (by decide) (by decide)) (honly _ (by decide) (by decide) (by decide)),
    hloader, ?_⟩
  rw [honly.own stock_target rfl]
  exact h.quiet

theorem Ending.withKernel (hO : Aside env O) (h : x.Ending O committed card)
    (honly : mesosphere.Only card card') (hkernel : x.kernel.At mesosphere committed card') :
    x.Ending O committed card' := by
  refine ⟨h.toHeld.only hO mesosphere_target honly, (honly.own mesosphere_target rfl).trans h.ini, hkernel,
    h.loader.congr (honly _ (by decide) (by decide) (by decide)) (honly _ (by decide) (by decide) (by decide)), ?_⟩
  rw [honly.own mesosphere_target rfl]
  exact h.quiet

variable {p : Path}

theorem update_either {a b q : Path} (hp : p = a ∨ p = b) (ha : q ≠ a) (hb : q ≠ b) :
    update card p none q = card q := by
  rcases hp with rfl | rfl
  · rw [update_of_ne ha]
  · rw [update_of_ne hb]

theorem Ending.remove (hO : Aside env O) (h : x.Ending O committed card)
    (hp : p = .committed ∨ p = .staged) : x.Ending O committed (update card p none) := by
  have hkeep : ∀ q, q ≠ .committed → q ≠ .staged → update card p none q = card q :=
    fun _ => update_either hp
  have hmarker : ∀ b, update card p none .committed = some b → card .committed = some b := by
    intro b hb
    rcases hp with rfl | rfl
    · rw [update_self] at hb
      cases hb
    · rw [update_of_ne (by decide)] at hb
      exact hb
  have hbeyond : Beyond card (update card p none) :=
    .update card (by rcases hp with rfl | rfl <;> rfl) none
  refine ⟨h.toHeld.congr (hO.congr card _ h.outside hbeyond) (hkeep _ (by decide) (by decide)) (fun update => ?_)
      fun b hb => h.marker b (hmarker b hb), (hkeep _ (by decide) (by decide)).trans h.ini,
    h.kernel.congr (hkeep _ (by decide) (by decide)) (hkeep _ (by decide) (by decide)),
    h.loader.congr (hkeep _ (by decide) (by decide)) (hkeep _ (by decide) (by decide)),
    fun hfalse hsame hsome => h.quiet hfalse hsame (hmarker _ hsome)⟩
  cases update with
  | false => exact hkeep _ (by decide) (by decide)
  | true => exact hkeep _ (by decide) (by decide)

theorem finishFixed_unchanged (f : Fixed) (existed existed' committed : Bool) :
    finishFixed f false existed committed = finishFixed f false existed' committed := rfl

/-- The journal says of the loader what the transaction does to it. -/
theorem finish_loader (x : Tx env) (committed : Bool) :
    finishFixed stock ((x.started.transaction env).flags &&& 4 ≠ 0) ((x.started.transaction env).flags &&& 8 ≠ 0)
      committed = finishFixed stock x.loader.changed x.loader.old.isSome committed := by
  rw [Started.transaction, (flags_loader _ _).1, (flags_loader _ _).2, ← x.loader_changed]
  cases hloader : x.loader.changed with
  | false => exact finishFixed_unchanged ..
  | true => rw [x.loader_existed hloader]

theorem finish_kernel (x : Tx env) (committed : Bool) :
    finishFixed mesosphere ((x.started.transaction env).flags &&& 1 ≠ 0)
      ((x.started.transaction env).flags &&& 2 ≠ 0) committed =
      finishFixed mesosphere x.kernel.changed x.kernel.old.isSome committed := by
  rw [Started.transaction, (flags_kernel _ _).1, (flags_kernel _ _).2, ← x.kernel_changed]
  cases hkernel : x.kernel.changed with
  | false => exact finishFixed_unchanged ..
  | true => rw [x.kernel_existed hkernel]

theorem Settled.congr (h : x.Settled O card) (hO : O card') (hjournal : card' .journal = card .journal)
    (hstaged : card' .staged = card .staged) (hini : card' .ini = card .ini) (hpaths : ∀ f ∈ targets,
      card' f.path = card f.path ∧ card' f.previous = card f.previous) : x.Settled O card' := by
  obtain ⟨committed, hini0, hkernel, hloader⟩ := h.state
  have hstock := hpaths stock stock_target
  have hmeso := hpaths mesosphere mesosphere_target
  exact ⟨hjournal.trans h.journal, fun b hb => h.staged b (hstaged.symm.trans hb), hO, committed, hini.trans hini0, hkernel.congr hmeso.1 hmeso.2,
    hloader.congr hstock.1 hstock.2⟩

/-- The result of a recovery that takes back, or keeps. -/
def resultOf (committed : Bool) : Result := if committed then .already else .ok

theorem Settled.remove (hO : Aside env O) (h : x.Settled O card)
    (hp : p = .backup ∨ p = .updateBackup) : x.Settled O (update card p none) := by
  have hbeyond : Beyond card (update card p none) :=
    .update card (by rcases hp with rfl | rfl <;> rfl) none
  have hkeep : ∀ q, q ≠ .backup → q ≠ .updateBackup → update card p none q = card q :=
    fun _ => update_either hp
  refine h.congr (hO.congr card _ h.outside hbeyond) (hkeep _ (by decide) (by decide))
    (hkeep _ (by decide) (by decide)) (hkeep _ (by decide) (by decide)) fun f hf => ?_
  rcases eq_of_target hf with rfl | rfl
  · exact ⟨hkeep _ (by decide) (by decide), hkeep _ (by decide) (by decide)⟩
  · exact ⟨hkeep _ (by decide) (by decide), hkeep _ (by decide) (by decide)⟩

theorem removeIniBackups_settled (hO : Aside env O) (h : x.Settled O card) :
    removeIniBackups.Safe (cardActs whole) (fun c => x.Pending whole O c ∨ x.Settled O c)
      (fun ok c => ok = true ∧ x.Settled O c) card := by
  have h1 := h.remove hO (.inl rfl)
  have h2 := h1.remove hO (.inr rfl)
  exact removeIniBackups_safe (.inr h) (.inr h1) (.inr h2) ⟨rfl, h2⟩

theorem finishRecovery_safe (hO : Aside env O) (h : x.Ending O committed card) :
    (finishRecovery (x.started.transaction env) (resultOf committed)).Safe (cardActs whole)
      (fun c => x.Pending whole O c ∨ x.Settled O c)
      (fun result c => result = resultOf committed ∧ x.Settled O c) card := by
  have hcommitted : decide (resultOf committed = .already) = committed := by cases committed <;> rfl
  unfold finishRecovery
  dsimp only
  rw [hcommitted, finish_loader, finish_kernel]
  refine Prog.Safe.check (T := fun c => x.Ending O committed c ∧ x.loader.Done stock committed c) ?_ ?_
  · refine (finish_safe stock_distinct x.loader_small h.loader).mono
      (fun c hc => .inl (h.withLoader hO hc.2 hc.1).pending) fun ok c hc => ⟨hc.1, ?_, hc.2.1⟩
    exact h.withLoader hO hc.2.2 hc.2.1.at
  rintro c1 ⟨h1, hloader⟩
  refine Prog.Safe.check (T := fun c => x.Ending O committed c ∧ x.loader.Done stock committed c ∧
    x.kernel.Done mesosphere committed c) ?_ ?_
  · refine (finish_safe mesosphere_distinct x.kernel_small h1.kernel).mono
      (fun c hc => .inl (h1.withKernel hO hc.2 hc.1).pending) fun ok c hc => ⟨hc.1, ?_, ?_, hc.2.1⟩
    · exact h1.withKernel hO hc.2.2 hc.2.1.at
    · exact hloader.congr (hc.2.2 _ (by decide) (by decide) (by decide)) (hc.2.2 _ (by decide) (by decide) (by decide))
  rintro c2 ⟨h2, hloader, hkernel⟩
  refine flush_check (h2.ini ▸ rfl) ?_
  have h3 := h2.remove hO (.inl rfl)
  have h4 := h3.remove hO (.inr rfl)
  refine remove_check (.inl h2.pending) (remove_check (.inl h3.pending) ?_)
  -- the targets are as they will be
  have hdone : x.kernel.Done mesosphere committed (update (update c2 .committed none) .staged none) ∧
      x.loader.Done stock committed (update (update c2 .committed none) .staged none) :=
    ⟨hkernel.congr rfl rfl, hloader.congr rfl rfl⟩
  have hstaged : update (update c2 .committed none) .staged none .staged = none :=
    update_self ..
  generalize update (update c2 .committed none) .staged none = c4 at h4 hdone hstaged ⊢
  have hsettled : x.Settled O (update c4 .journal none) :=
    ⟨update_self .., fun b hb => (by cases hstaged.symm.trans hb), hO.congr c4 _ h4.outside (.update c4 rfl none), committed, h4.ini,
      hdone.1.congr rfl rfl, hdone.2.congr rfl rfl⟩
  refine unlink_check (h4.journal ▸ rfl) (.inl h4.pending) ?_
  exact Prog.Safe.check (removeIniBackups_settled hO hsettled) fun c hc => ⟨.inr hc, rfl, hc⟩

theorem Held.withIni (hO : Aside env O) (h : x.Held O card) (file : Option Bytes) :
    x.Held O (update card .ini file) := by
  refine h.congr (hO.congr card _ h.outside (.update card rfl file)) rfl (fun update => ?_) h.marker
  cases update <;> rfl

theorem Fresh.withIni (h : x.Fresh card) (file : Option Bytes) : x.Fresh (update card .ini file) :=
  ⟨h.1.congr rfl rfl, h.2.congr rfl rfl⟩

/-- All was in its place before the INI was touched, so that either way out is open. -/
theorem Fresh.ending (h : x.Fresh card) (hheld : x.Held O card)
    (hini : card .ini = some (if committed then x.started.output else x.started.ini))
    (hquiet : committed = false → ¬ x.Same) : x.Ending O committed card :=
  ⟨hheld, hini, h.1.at committed, h.2.at committed, fun hfalse hsame => absurd hsame (hquiet hfalse)⟩

theorem read_ini_eq {file : Bytes} (hfile : file <+: x.started.ini ∨ file <+: x.started.output) :
    readOf (some file) (iniLimit * 2) = .data file := by
  have hbefore := x.before_small
  have hafter := x.after_small
  refine readOf_some ?_
  rcases hfile with h | h
  · have := h.length_le
    omega
  · have := h.length_le
    omega

/-- A part of the INI has neither hash. -/
theorem part_hash {part whole : Bytes} (hpart : part <+: x.started.ini ∨ part <+: x.started.output)
    (hwhole : whole = x.started.ini ∨ whole = x.started.output) (hlength : part.length ≠ whole.length) :
    env.hash part ≠ env.hash whole := fun heq => hlength (congrArg List.length (x.exact _ _ hpart hwhole heq))

theorem restoreIni_safe (hO : Aside env O) (h : x.Pending whole O card) :
    (restoreIni env (x.started.transaction env) x.started.ini (readOf (card .committed) 32)
      (readOf (card .ini) (iniLimit * 2))).Safe (cardActs whole)
      (fun c => x.Pending whole O c ∨ x.Settled O c)
      (fun result c => (∃ committed, result = resultOf committed ∧ x.Ending O committed c) ∨
        (¬ whole .ini ∧ result = .recovery ∧ x.Pending whole O c)) card := by
  have hnow : x.Pending whole O card ∨ x.Settled O card := .inl h
  have hself : ∀ a : Bytes, a <+: a := prefix_refl
  cases h.state with
  | old hini hkernel hloader hsame =>
    rw [hini, read_ini_eq (.inl (hself _)), restoreIni]
    by_cases hmarked : x.Same ∧ card .committed = some (env.hash x.started.output)
    · obtain ⟨heq, hmarker⟩ := hmarked
      have hread : readOf (card .committed) 32 = .data (env.hash x.started.output) := by
        rw [hmarker, readOf_some (Nat.le_of_eq (env.hash_length _))]
      rw [if_pos ⟨heq, .inr hread⟩]
      refine ⟨hnow, .inl ⟨true, rfl, (hsame heq hmarker).ending h.toHeld ?_ nofun⟩⟩
      rw [hini, x.eq_of_same heq]
      rfl
    · have hnot : ¬ (env.hash x.started.ini = env.hash x.started.output ∧
          (env.hash x.started.ini ≠ env.hash x.started.output ∨
            readOf (card .committed) 32 = .data (env.hash x.started.output))) := by
        rintro ⟨heq, hne | hread⟩
        · exact hne heq
        · refine hmarked ⟨heq, ?_⟩
          cases hmarker : card .committed with
          | none =>
            rw [hmarker] at hread
            cases hread
          | some b =>
            rw [hmarker, readOf_some (h.marker b hmarker), Read.data.injEq] at hread
            rw [hread]
      rw [Started.transaction, if_neg hnot, if_pos rfl]
      exact ⟨hnow, .inl ⟨false, rfl, h.toHeld, hini, hkernel, hloader,
        fun _ heq hmarker => hmarked ⟨heq, hmarker⟩⟩⟩
  | new hini hnew hfresh =>
    rw [hini, read_ini_eq (.inr (hself _)), restoreIni, if_pos ⟨rfl, .inl hnew⟩]
    exact ⟨hnow, .inl ⟨true, rfl, hfresh.ending h.toHeld hini nofun⟩⟩
  | appended n hadd hbegins hmore hless hini hstaged hfresh =>
    have hlength : (x.started.output.take n).length = n := by
      rw [length_take]
      omega
    have hpart : x.started.output.take n <+: x.started.output := take_prefix ..
    have hnew : ¬ x.Same := by
      intro heq
      rw [← x.eq_of_same heq] at hless
      omega
    have hafter : env.hash (x.started.output.take n) ≠ env.hash x.started.output :=
      part_hash (.inr hpart) (.inr rfl) (by omega)
    have hbefore : env.hash (x.started.output.take n) ≠ (x.started.transaction env).before :=
      part_hash (.inr hpart) (.inl rfl) (by omega)
    have hold : (x.started.output.take n).take x.started.ini.length = x.started.ini := by
      rw [take_take, Nat.min_eq_left (Nat.le_of_lt hmore)]
      exact (prefix_iff_eq_take.mp hbegins).symm
    rw [hini, read_ini_eq (.inr hpart), restoreIni, if_neg fun hc => hafter hc.1, if_neg hbefore, if_pos]
    · refine read_safe ?_
      rw [hstaged, read_ini_eq (.inr (hself _))]
      dsimp only
      rw [if_pos ⟨rfl, by omega, by rw [hlength]⟩]
      refine resize_check hini hnow ?_
      rw [hold]
      have hending : x.Ending O false (update card .ini (some x.started.ini)) :=
        (hfresh.withIni _).ending (h.toHeld.withIni hO _) (update_self ..) fun _ => hnew
      exact ⟨.inl hending.pending, .inl ⟨false, rfl, hending⟩⟩
    · rw [Started.transaction, hadd]
      exact ⟨rfl, by omega, hold⟩
  | removed hupdate hini hnew hfresh =>
    rw [hini]
    have hending : x.Ending O false (update card .ini (some x.started.ini)) :=
      (hfresh.withIni _).ending (h.toHeld.withIni hO _) (update_self ..) fun _ => hnew
    refine write_check hini hnow (fun htorn n hn => .inl ⟨h.toHeld.withIni hO _, ?_⟩)
      ⟨.inl hending.pending, .inl ⟨false, rfl, hending⟩⟩
    exact .cut n htorn hupdate hn (update_self ..) hnew (hfresh.withIni _)
  | cut n htorn hupdate hless hini hnew hfresh =>
    have hpart : x.started.ini.take n <+: x.started.ini := take_prefix ..
    rw [hini, read_ini_eq (.inl hpart), restoreIni]
    by_cases hafter : env.hash (x.started.ini.take n) = env.hash x.started.output
    · rw [if_pos ⟨hafter, .inl hnew⟩]
      refine ⟨hnow, .inl ⟨true, rfl, hfresh.ending h.toHeld ?_ nofun⟩⟩
      rw [hini, x.exact _ _ (.inl hpart) (.inr rfl) hafter]
      rfl
    · have hbefore : env.hash (x.started.ini.take n) ≠ (x.started.transaction env).before :=
        part_hash (.inl hpart) (.inl rfl) (by rw [length_take]; omega)
      rw [if_neg fun hc => hafter hc.1, if_neg hbefore, if_neg]
      · exact ⟨hnow, .inr ⟨htorn, rfl, h⟩⟩
      · rw [Started.transaction, hupdate]
        exact fun hc => Bool.false_ne_true hc.1

theorem IniAt.congr (h : x.IniAt whole card) (hinside : Inside card card') : x.IniAt whole card' := by
  have hini := hinside .ini rfl
  have hfresh : x.Fresh card → x.Fresh card' := fun hf =>
    ⟨hf.1.congr (hinside _ rfl) (hinside _ rfl), hf.2.congr (hinside _ rfl) (hinside _ rfl)⟩
  cases h with
  | old hold hkernel hloader hsame =>
    refine .old (hini.trans hold) (hkernel.congr (hinside _ rfl) (hinside _ rfl))
      (hloader.congr (hinside _ rfl) (hinside _ rfl)) fun heq hmarker => hfresh (hsame heq ?_)
    rw [← hinside .committed rfl]
    exact hmarker
  | new hnow hnew hf => exact .new (hini.trans hnow) hnew (hfresh hf)
  | appended n hadd hbegins hmore hless hnow hstaged hf =>
    exact .appended n hadd hbegins hmore hless (hini.trans hnow) ((hinside .staged rfl).trans hstaged) (hfresh hf)
  | removed hupdate hnow hnew hf => exact .removed hupdate (hini.trans hnow) hnew (hfresh hf)
  | cut n htorn hupdate hless hnow hnew hf => exact .cut n htorn hupdate hless (hini.trans hnow) hnew (hfresh hf)

theorem Pending.congr (h : x.Pending whole O card) (hO : O card') (hinside : Inside card card') :
    x.Pending whole O card' := by
  refine ⟨h.toHeld.congr hO (hinside _ rfl) (fun update => ?_) ?_, h.state.congr hinside⟩
  · cases update with
    | false => exact hinside _ rfl
    | true => exact hinside _ rfl
  · rw [hinside .committed rfl]
    exact h.marker

/-- A recovery of the transaction ends it, unless the INI was torn. -/
theorem recover_pending (hO : Aside env O) (h : x.Pending whole O card) :
    (recover env).Safe (cardActs whole) (fun c => x.Pending whole O c ∨ x.Settled O c)
      (fun result c => ((result = .ok ∨ result = .already) ∧ x.Settled O c) ∨
        (¬ whole .ini ∧ result = .recovery ∧ x.Pending whole O c)) card := by
  unfold recover
  refine Prog.Safe.check (recoverHoc_safe hO.toHocKept h.outside fun c hc hinside => .inl (h.congr hc hinside)) ?_
  rintro c ⟨hc, hinside⟩
  replace h := h.congr hc hinside
  refine read_safe ?_
  obtain ⟨hlength, hbytes⟩ := transaction_bytes env x.started
  rw [h.journal, readOf_some (Nat.le_of_eq hlength)]
  dsimp only
  rw [hbytes]
  unfold recoverTransaction
  refine read_safe ?_
  rw [show c (backupPath (x.started.transaction env).update) = _ from h.backup, readOf_some x.before_small]
  dsimp only
  rw [if_pos (show env.hash x.started.ini = (x.started.transaction env).before from rfl)]
  refine read_safe ?_
  rw [if_neg]
  · refine read_safe ((restoreIni_safe hO h).bind ?_)
    rintro result c1 (⟨committed, rfl, hending⟩ | ⟨htorn, rfl, hpending⟩)
    · rw [if_neg (by cases committed <;> decide)]
      refine (finishRecovery_safe hO hending).mono (fun _ hc => hc) fun result c2 hc2 => .inl ⟨?_, hc2.2⟩
      rw [hc2.1]
      cases committed with
      | false => exact .inl rfl
      | true => exact .inr rfl
    · exact ⟨.inl hpending, .inr ⟨htorn, rfl, hpending⟩⟩
  · cases hmarker : c .committed with
    | none =>
      intro herror
      cases herror
    | some b =>
      rw [readOf_some (h.marker b hmarker)]
      intro herror
      cases herror

end Tx

end Autorun.Setup
