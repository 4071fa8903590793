import Mathlib.Logic.Function.Basic
import Autorun.Lib.Crash

namespace Autorun.Setup

open Autorun.Lib

abbrev Bytes := List UInt8

/-- The files of the card that boot setup knows, and the others. -/
inductive Path where
  | ini | backup | updateBackup | staged | journal | committed
  | mesosphere | mesosphereStaged | mesospherePrevious
  | stockKip | stockStaged | stockPrevious
  | hocKip | hocStaged | hocPrevious
  | other (name : Nat)
deriving DecidableEq

abbrev Card := Path → Option Bytes

/-- What is asked of the card. -/
inductive Act where
  | read (path : Path)
  | create (path : Path) (data : Bytes)
  | append (path : Path) (data : Bytes)
  | rename (source target : Path)
  | unlink (path : Path)
  | truncate (path : Path) (size : Nat)

def Act.apply : Act → Card → Card
  | .read _, card => card
  | .create path data, card => Function.update card path (some data)
  | .append path data, card => Function.update card path ((card path).map (· ++ data))
  | .rename source target, card => Function.update (Function.update card target (card source)) source none
  | .unlink path, card => Function.update card path none
  | .truncate path size, card => Function.update card path ((card path).map (·.take size))

/-- A write can be cut short, the other acts are atomic. Files that are `whole` are not torn when they are
created. -/
def Act.torn (whole : Path → Prop) : Act → Card → Card → Prop
  | .create path data, card, card' =>
    ¬ whole path ∧ ∃ n, n < data.length ∧ card' = Function.update card path (some (data.take n))
  | .append path data, card, card' =>
    ∃ n, n < data.length ∧ card' = Function.update card path ((card path).map (· ++ data.take n))
  | _, _, _ => False

/-- Every act succeeds until a stop. -/
def cardActs (whole : Path → Prop) : Prog.Acts Card Act where
  apply := Act.apply
  stop := fun a card card' => card' = card ∨ a.torn whole card card'
  fail := fun _ _ _ => False

/-- Any act can fail: it has done nothing, a part, or all but the last flush. -/
def faultyActs (whole : Path → Prop) : Prog.Acts Card Act where
  apply := Act.apply
  stop := fun a card card' => card' = card ∨ a.torn whole card card'
  fail := fun a card card' => card' = card ∨ a.torn whole card card' ∨ card' = a.apply card

abbrev Io := Prog Card Act

def iniLimit : Nat := 256 * 1024

def payloadLimit : Nat := 32 * 1024 * 1024

/-- The SHA-256 of a file, and what `hoc_config` says of one: whether it is a HOC loader, and whether one of the
revision and version in the manifest. -/
structure Env where
  hash : Bytes → Bytes
  isHoc : Bytes → Bool
  matchesHoc : Bytes → Bool
  hash_length : ∀ bytes, (hash bytes).length = 32
  isHoc_of_matches : ∀ bytes, matchesHoc bytes = true → isHoc bytes = true

inductive Result where
  | ok | already | missing | invalid | unsupported | changed | io | recovery
deriving DecidableEq

inductive Read where
  | error
  | missing
  | data (bytes : Bytes)
deriving DecidableEq

/-- Folders and `safe_parents` are left out, here and in `removeFile`, `moveFile` and `recover`: a file in a folder
that is not there is missing, where `read_file` gives an error. -/
def readFile (path : Path) (limit : Nat) : Io Read :=
  .act (.read path) fun ok =>
    if ok then .look fun card =>
      match card path with
      | none => .ret .missing
      | some bytes => .ret (if bytes.length ≤ limit then .data bytes else .error)
    else .ret .error

def writeNew (path : Path) (data : Bytes) : Io Bool :=
  .look fun card =>
    if (card path).isSome then .ret false
    else .act (.create path data) fun ok =>
      if ok then .ret true else .act (.unlink path) fun _ => .ret false

def removeFile (path : Path) : Io Bool :=
  .look fun card => if (card path).isSome then .act (.unlink path) .ret else .ret true

def removeIniBackups : Io Bool :=
  (removeFile .backup).bind fun initial => (removeFile .updateBackup).bind fun update => .ret (initial && update)

def moveFile (source target : Path) : Io Bool :=
  .look fun card =>
    if (card source).isNone ∨ (card target).isSome then .ret false else .act (.rename source target) .ret

def resizeFile (path : Path) (size : Nat) : Io Bool :=
  .look fun card => if (card path).isSome then .act (.truncate path size) .ret else .ret false

/-- `open`, `fsync` and `close`. -/
def flushFile (path : Path) : Io Bool :=
  .act (.read path) fun ok => .look fun card => .ret (ok && (card path).isSome)

/-- `unlink` of a file that has to be there. -/
def unlinkFile (path : Path) : Io Bool :=
  .look fun card => if (card path).isSome then .act (.unlink path) .ret else .ret false

variable (env : Env)

/-- The same size and the same hash. -/
def sameFile (a b : Bytes) : Bool := a.length = b.length ∧ env.hash a = env.hash b

/-- `immutable_file`, whether it is 1. -/
def immutableFile (path : Path) (data : Bytes) : Io Bool :=
  (readFile path payloadLimit).bind fun
    | .error => .ret false
    | .data existing => .ret (sameFile env existing data)
    | .missing =>
      (writeNew path data).check false <| (readFile path payloadLimit).bind fun
        | .data existing => .ret (sameFile env existing data)
        | _ => .ret false

/-- A file of Atmosphere at a fixed place, its new version and its previous one. -/
structure Fixed where
  path : Path
  staged : Path
  previous : Path

def mesosphere : Fixed := ⟨.mesosphere, .mesosphereStaged, .mesospherePrevious⟩

def stock : Fixed := ⟨.stockKip, .stockStaged, .stockPrevious⟩

/-- What `fixed_state` returns: -1, 0, 1 and 2. -/
inductive FixedState where
  | unreadable | same | absent | differs
deriving DecidableEq

def fixedState (path : Path) (data : Bytes) : Io FixedState :=
  (readFile path payloadLimit).bind fun
    | .error => .ret .unreadable
    | .missing => .ret .absent
    | .data current => .ret (if sameFile env current data then .same else .differs)

def replaceFixed (f : Fixed) (data : Bytes) : FixedState → Io Bool
  | .same => .ret true
  | .absent => immutableFile env f.path data
  | _ =>
    (removeFile f.staged).check false <| (writeNew f.staged data).check false <|
    (moveFile f.path f.previous).check false <|
    (moveFile f.staged f.path).bind fun moved =>
      if moved then (readFile f.path payloadLimit).bind fun
        | .data check => .ret (sameFile env check data)
        | _ => .ret false
      else (moveFile f.previous f.path).bind fun _ => .ret false

def recoverMissingFixed (f : Fixed) : Io Bool :=
  (readFile f.path payloadLimit).bind fun
    | .data _ => .ret true
    | .error => .ret false
    | .missing => (readFile f.previous payloadLimit).bind fun
      | .data _ => moveFile f.previous f.path
      | .missing => .ret true
      | .error => .ret false

def finishFixed (f : Fixed) (changed existed committed : Bool) : Io Bool :=
  if !changed then .ret true
  else if committed then
    (readFile f.path payloadLimit).bind fun
      | .data _ => removeFile f.staged
      | _ => .ret false
  else if existed then
    (readFile f.previous payloadLimit).bind fun
      | .error => .ret false
      | .data _ =>
        (removeFile f.path).check false <| (moveFile f.previous f.path).check false (removeFile f.staged)
      | .missing => (readFile f.path payloadLimit).bind fun
        | .data _ => removeFile f.staged
        | _ => .ret false
  else (removeFile f.path).check false (removeFile f.staged)

def recoverHoc : Io Bool :=
  (readFile .hocKip payloadLimit).bind fun
    | .data _ => .ret true
    | .error => .ret false
    | .missing => (readFile .hocPrevious payloadLimit).bind fun
      | .missing => .ret true
      | .error => .ret false
      | .data previous => if env.isHoc previous then moveFile .hocPrevious .hocKip else .ret false

def replaceHoc (loader : Bytes) : Io Bool :=
  (readFile .hocKip payloadLimit).bind fun
    | .missing => immutableFile env .hocKip loader
    | .error => .ret false
    | .data current =>
      if sameFile env current loader then .ret true
      else if !env.matchesHoc current then .ret false
      else
        (removeFile .hocStaged).check false <| (removeFile .hocPrevious).check false <|
        (writeNew .hocStaged loader).check false <|
        (moveFile .hocKip .hocPrevious).bind fun kept =>
          if !kept then (recoverHoc env).bind fun _ => .ret false
          else (moveFile .hocStaged .hocKip).bind fun moved =>
            if !moved then (moveFile .hocPrevious .hocKip).bind fun _ => .ret false
            else (readFile .hocKip payloadLimit).bind fun check =>
              if (match check with | .data bytes => sameFile env bytes loader | _ => false) then .ret true
              else (removeFile .hocKip).check false ((moveFile .hocPrevious .hocKip).bind fun _ => .ret false)

def appendCommit (output : Bytes) (originalSize : Nat) : Io Bool :=
  .look fun card =>
    match card .ini with
    | none => .ret false
    | some current =>
      if current.length = originalSize then .act (.append .ini (output.drop originalSize)) .ret
      else .ret false

def replaceCommit : Io Bool :=
  (unlinkFile .ini).check false <| .look fun card =>
    if (card .staged).isSome then .act (.rename .staged .ini) .ret else .ret false

/-- `struct transaction`; `update` is whether the magic ends in 2. -/
structure Transaction where
  update : Bool
  flags : UInt8
  before : Bytes
  after : Bytes

/-- "ARBOOT1" and "ARBOOT2". -/
def magic (update : Bool) : Bytes := [65, 82, 66, 79, 79, 84, if update then 50 else 49]

def Transaction.bytes (t : Transaction) : Bytes := magic t.update ++ t.flags :: (t.before ++ t.after)

def Transaction.ofBytes (j : Bytes) : Option Transaction :=
  if j.length = 72 ∧ (j.take 7 = magic true ∨ j.take 7 = magic false) ∧ j.getD 7 0 &&& 0xf0 = 0 then
    some ⟨j.take 7 = magic true, j.getD 7 0, (j.drop 8).take 32, j.drop 40⟩
  else none

/-- Where the INI is kept during a transaction. -/
def backupPath (update : Bool) : Path := if update then .updateBackup else .backup

/-- The part of `setup_boot_recover` that decides by the INI, and restores it if need be. -/
def restoreIni (t : Transaction) (before : Bytes) (committed : Read) : Read → Io Result
  | .error => .ret .recovery
  | .missing => (writeNew .ini before).check .recovery (.ret .ok)
  | .data current =>
    if env.hash current = t.after ∧ (t.before ≠ t.after ∨ committed = .data t.after) then .ret .already
    else if env.hash current = t.before then .ret .ok
    else if !t.update ∧ before.length < current.length ∧ current.take before.length = before then
      (readFile .staged (iniLimit * 2)).bind fun
        | .data after =>
          if env.hash after = t.after ∧ current.length < after.length ∧ after.take current.length = current then
            (resizeFile .ini before.length).check .recovery (.ret .ok)
          else .ret .recovery
        | _ => .ret .recovery
    else .ret .recovery

/-- The end of `setup_boot_recover`. -/
def finishRecovery (t : Transaction) (result : Result) : Io Result :=
  let committed := result = .already
  (finishFixed stock (t.flags &&& 4 ≠ 0) (t.flags &&& 8 ≠ 0) committed).check .recovery <|
  (finishFixed mesosphere (t.flags &&& 1 ≠ 0) (t.flags &&& 2 ≠ 0) committed).check .recovery <|
  (flushFile .ini).check .recovery <| (removeFile .committed).check .recovery <|
  (removeFile .staged).check .recovery <| (unlinkFile .journal).check .recovery <|
  removeIniBackups.check .io (.ret result)

def recoverTransaction (t : Transaction) : Io Result :=
  (readFile (backupPath t.update) iniLimit).bind fun
    | .data before =>
      if env.hash before = t.before then
        (readFile .committed 32).bind fun committed =>
          if committed = .error then .ret .recovery
          else (readFile .ini (iniLimit * 2)).bind fun current =>
            (restoreIni env t before committed current).bind fun result =>
              if result = .recovery then .ret .recovery else finishRecovery t result
      else .ret .recovery
    | _ => .ret .recovery

/-- `setup_boot_recover` -/
def recover : Io Result :=
  (recoverHoc env).check .recovery <| (readFile .journal 72).bind fun
    | .missing =>
      (removeFile .committed).check .recovery <| (recoverMissingFixed stock).check .recovery <|
      (recoverMissingFixed mesosphere).check .recovery (.ret .ok)
    | .error => .ret .recovery
    | .data journal =>
      match Transaction.ofBytes journal with
      | none => .ret .recovery
      | some t => recoverTransaction env t

/-- The new INI: the old one with an entry behind it, or with its entry changed. -/
inductive Change where
  | add (entry : Bytes) (nonempty : entry ≠ [])
  | update (output : Bytes)

def Change.isUpdate : Change → Bool
  | .add .. => false
  | .update _ => true

def Change.output (ini : Bytes) : Change → Bytes
  | .add entry _ => ini ++ entry
  | .update output => output

/-- What `setup_boot_install` works out before it writes anything. -/
structure Plan where
  hoc : Bool
  loader : Bytes
  kernel : Bytes
  change : Change
  loader_small : loader.length ≤ payloadLimit
  kernel_small : kernel.length ≤ payloadLimit

/-- What the transaction begins with. -/
structure Started where
  plan : Plan
  ini : Bytes
  kernelState : FixedState
  stockState : FixedState

def Started.output (s : Started) : Bytes := s.plan.change.output s.ini

def flagsOf (changed existed : UInt8) : FixedState → UInt8
  | .same => 0
  | .differs => changed ||| existed
  | _ => changed

def Started.transaction (s : Started) : Transaction where
  update := s.plan.change.isUpdate
  flags := flagsOf 1 2 s.kernelState ||| flagsOf 4 8 s.stockState
  before := env.hash s.ini
  after := env.hash s.output

/-- The files beside one that will be changed. -/
def removeOld (f : Fixed) (state : FixedState) : Io Bool :=
  if state = .same then .ret true else (removeFile f.staged).check false (removeFile f.previous)

/-- The files that `setup_boot_install` writes before the journal. -/
def stage (s : Started) : Io (Except Result Started) :=
  removeIniBackups.check (.error .io) <|
  (removeOld mesosphere s.kernelState).check (.error .io) <|
  (removeOld stock s.stockState).check (.error .io) <|
  (immutableFile env (backupPath s.plan.change.isUpdate) s.ini).check (.error .io) <|
  (immutableFile env .staged s.output).check (.error .io) <|
  (readFile .ini iniLimit).bind fun
    | .data check => .ret (if env.hash check = env.hash s.ini then .ok s else .error .changed)
    | _ => .ret (.error .changed)

/-- `setup_boot_install` up to the journal. `choose` stands for the checks of the manifest, the INI and the
payloads, which only read. -/
def prepare (choose : Card → Bytes → Except Result Plan) : Io (Except Result Started) :=
  (recover env).bind fun result =>
    if result ≠ .ok then .ret (.error result)
    else (readFile .ini iniLimit).bind fun
      | .data ini => .look fun card =>
        match choose card ini with
        | .error result => .ret (.error result)
        | .ok plan =>
          (fixedState env .mesosphere plan.kernel).bind fun kernelState =>
          (if plan.hoc then .ret .same else fixedState env .stockKip plan.loader).bind fun stockState =>
            if kernelState = .unreadable ∨ stockState = .unreadable then .ret (.error .unsupported)
            else if (plan.change.output ini).length > iniLimit then .ret (.error .unsupported)
            else stage env ⟨plan, ini, kernelState, stockState⟩
      | _ => .ret (.error .io)

/-- After something went wrong. -/
def giveUp : Io Result := (recover env).bind fun result => .ret (if result = .recovery then result else .io)

/-- The last recovery of an install. -/
def conclude : Io Result :=
  (recover env).bind fun result =>
    .ret (if result = .already then .ok else if result = .recovery then result else .io)

/-- `setup_boot_install` from the journal on. -/
def transact (s : Started) : Io Result :=
  let same := env.hash s.ini = env.hash s.output
  (writeNew .journal (s.transaction env).bytes).check .io <|
  (replaceFixed env mesosphere s.plan.kernel s.kernelState).bind fun kernel =>
  (if kernel ∧ ¬ s.plan.hoc then replaceFixed env stock s.plan.loader s.stockState else .ret kernel).bind fun fixed =>
  if !fixed then giveUp env
  else (if s.plan.hoc then replaceHoc env s.plan.loader else .ret true).bind fun loader =>
    if !loader then giveUp env
    else
      (match s.plan.change with
        | .add .. => appendCommit s.output s.ini.length
        | .update _ => if same then .ret true else replaceCommit).bind fun published =>
      if !published then conclude env
      else (if same then writeNew .committed (env.hash s.output) else .ret true).bind fun complete =>
        if !complete then giveUp env else conclude env

/-- `setup_boot_install` -/
def install (choose : Card → Bytes → Except Result Plan) : Io Result :=
  (prepare env choose).bind fun
    | .error result => .ret result
    | .ok s => transact env s

end Autorun.Setup
