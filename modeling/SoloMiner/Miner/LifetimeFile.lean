import SoloMiner.Lib.Prog
import SoloMiner.Lib.Text
import SoloMiner.Miner.Lifetime
import SoloMiner.Primitives.Numeric

/-!
# The file of the totals

The totals are saved as text, in three operations that may each fail: the directory is
created, the text is written to a temporary file, and that file is renamed. The miner may be
ended between any two of them, and a write that fails, or that the miner does not live to
see the end of, leaves any beginning of the text in the temporary file
(`SoloMiner.Disk.serve`).

`SoloMiner.Reporting` knows nothing of this: there a report is saved at once. It is right
nevertheless (`SoloMiner.Keeper.totals_survive`). Whatever fails and wherever the miner is
ended, the file is what a run of `SoloMiner.Reporting` leaves, namely of the run without the
reports that were made since the last save and lost with their session.

The invariant (`SoloMiner.Keeper.Behind`) says where the two differ: the session that runs
is some reports ahead of the totals that are saved, and a rename that succeeds makes up for
all of them at once.
-/

namespace SoloMiner

open StepSystem

/-- How the totals are kept as text. A library does that: it reads back what it has written,
and a number of zero bits has 32 bits. -/
structure LifetimeFormat where
  print : Lifetime → Str
  parse : Str → Option Lifetime
  parse_print : ∀ lifetime, lifetime.bestZeroBits < 2 ^ 32 →
    parse (print lifetime) = some lifetime
  lt_of_parse : ∀ text lifetime, parse text = some lifetime → lifetime.bestZeroBits < 2 ^ 32

namespace LifetimeFormat

variable (self : LifetimeFormat)

/-- The bytes that are written. -/
def bytes (lifetime : Lifetime) : Bytes := Utf8.encode (self.print lifetime)

/-- The totals in a file, if it is there, can be read and is the text of some. -/
def read (contents : Option Bytes) (fault : Option IoError) : Option Lifetime :=
  match contents with
  | none => none
  | some bytes =>
    match ByteStream.readToString ⟨bytes, fault⟩ with
    | .error _ => none
    | .ok text => self.parse text

end LifetimeFormat

/-- The file of the totals, and the temporary one beside it. -/
structure Disk where
  file : Option Bytes
  temporary : Option Bytes

/-- What a save asks the file system for. -/
inductive SaveOp where
  | createDirAll
  /-- Writes the temporary file. -/
  | write (bytes : Bytes)
  /-- Renames the temporary file. -/
  | rename

/-- A program that saves. -/
abbrev SaveProg : Type := Prog SaveOp (fun _ => Except IoError Unit) (Except IoError Unit)

/-- `Lifetime::save`, from the rename on. -/
def replacing : SaveProg := .op .rename .ret

/-- `Lifetime::save`, from the write on. -/
def writing (bytes : Bytes) : SaveProg :=
  .op (.write bytes) fun
    | .error error => .ret (.error error)
    | .ok () => replacing

/-- `Lifetime::save`: writes the totals out, replacing the previous file. -/
def save (bytes : Bytes) : SaveProg :=
  .op .createDirAll fun
    | .error error => .ret (.error error)
    | .ok () => writing bytes

/-- **What an operation does**, if it can be answered so. A write that fails leaves the file
as it was, or with so many bytes of what was to be written. A rename is made or not. -/
def Disk.serve (self : Disk) : SaveOp → Except IoError Unit → Option ℕ → Option Disk
  | .createDirAll, _, _ => some self
  | .write bytes, .ok (), _ => some { self with temporary := some bytes }
  | .write _, .error _, none => some self
  | .write bytes, .error _, some left => some { self with temporary := some (bytes.take left) }
  | .rename, .ok (), _ => self.temporary.map fun bytes => ⟨some bytes, none⟩
  | .rename, .error _, _ => some self

/-- The reporting thread of a session: its variables, and the save it is in or came from. -/
structure Keeping where
  reporter : ReportForever
  saving : Option SaveProg

/-- The thread sleeps until its next report. -/
def Keeping.isSleeping (self : Keeping) : Bool :=
  match self.saving with
  | none | some (.ret _) => true
  | _ => false

/-- The files, and the session that runs, if any. -/
structure Keeper where
  disk : Disk
  session : Option Keeping

/-- What happens. -/
inductive KeeperEvent where
  /-- The miner is started, and the session before it is over. Reading the file may fail. -/
  | start (now : UInt64) (fault : Option IoError)
  /-- The session that runs reports, and begins to save. -/
  | report (reading : Reading)
  /-- The next operation of the save. -/
  | perform (answer : Except IoError Unit) (left : Option ℕ)
  /-- The miner ends, whatever it is doing. In the middle of a write, this comes after a
  write that fails. -/
  | stop

/-- If a session starts, it can read the file. -/
def KeeperEvent.Reads : KeeperEvent → Prop
  | start _ fault => fault = none
  | _ => True

namespace Keeper

/-- A miner that is not running. -/
def off (disk : Disk) : Keeper := ⟨disk, none⟩

/-- One event, if it can happen. -/
def step (format : LifetimeFormat) (self : Keeper) : KeeperEvent → Option Keeper
  | .start now fault =>
    some { self with session := some ⟨.start (format.read self.disk.file fault) now, none⟩ }
  | .report reading =>
    match self.session with
    | none => none
    | some session =>
      if session.isSleeping then
        let reporter := session.reporter.report reading
        some { self with session := some ⟨reporter, some (save (format.bytes reporter.lifetime))⟩ }
      else none
  | .perform answer left =>
    match self.session with
    | some ⟨reporter, some (.op o next)⟩ =>
      (self.disk.serve o answer left).map fun disk => ⟨disk, some ⟨reporter, some (next answer)⟩⟩
    | _ => none
  | .stop => some { self with session := none }

/-! ### What a save is ahead of -/

/-- Where a session stands whose totals are these bytes, and which has made these reports
since its totals were saved, or since it loaded them. -/
inductive Stage (bytes : Bytes) (temporary : Option Bytes) :
    List Reading → Option SaveProg → Prop
  | loaded : Stage bytes temporary [] none
  | creating {pending : List Reading} (h : pending ≠ []) :
    Stage bytes temporary pending (some (save bytes))
  | writing {pending : List Reading} (h : pending ≠ []) :
    Stage bytes temporary pending (some (writing bytes))
  /-- What will be the file is there. -/
  | replacing {pending : List Reading} (h : pending ≠ []) (htemporary : temporary = some bytes) :
    Stage bytes temporary pending (some replacing)
  | failed {pending : List Reading} (error : IoError) :
    Stage bytes temporary pending (some (.ret (.error error)))
  | saved : Stage bytes temporary [] (some (.ret (.ok ())))

/-- **The session is some reports ahead** of the reporter that has saved all of its own. -/
structure Ahead (format : LifetimeFormat) (disk : Disk) (reporter : ReportForever)
    (session : Keeping) : Prop where
  pending : ∃ pending, session.reporter = pending.foldl ReportForever.report reporter ∧
    Stage (format.bytes session.reporter.lifetime) disk.temporary pending session.saving
  lt : session.reporter.lifetime.bestZeroBits < 2 ^ 32

/-- **The miner is behind** a run of `Reporting`: its file is that of the run, and the session
that runs is ahead of the reporter there. -/
structure Behind (format : LifetimeFormat) (k : Keeper) (s : Reporting) : Prop where
  file : s.file = format.read k.disk.file none
  session : ∀ session, k.session = some session →
    ∃ reporter, s.reporter = some reporter ∧ Ahead format k.disk reporter session
  saved : ∀ session, k.session = some session → session.saving = some (.ret (.ok ())) →
    s.file = some session.reporter.lifetime

variable {format : LifetimeFormat} {k k' : Keeper} {s : Reporting} {event : KeeperEvent}
  {events : List KeeperEvent}

theorem read_bytes {lifetime : Lifetime} (h : lifetime.bestZeroBits < 2 ^ 32) :
    format.read (some (format.bytes lifetime)) none = some lifetime := by
  have hread : ByteStream.readToString ⟨format.bytes lifetime, none⟩ =
      .ok (format.print lifetime) := by
    simp only [ByteStream.readToString, LifetimeFormat.bytes, Utf8.decode_encode]
  rw [LifetimeFormat.read, hread]
  exact format.parse_print lifetime h

theorem lt_of_read {contents : Option Bytes} {lifetime : Lifetime}
    (h : format.read contents none = some lifetime) : lifetime.bestZeroBits < 2 ^ 32 := by
  unfold LifetimeFormat.read at h
  split at h
  · exact absurd h (by simp)
  · split at h
    · exact absurd h (by simp)
    · exact format.lt_of_parse _ lifetime h

theorem leadingZeroBits_lt (h : Sha256dHash) : h.leadingZeroBits < 2 ^ 32 := by
  have hle : 256 - h.value.size ≤ 256 := Nat.sub_le _ _
  rw [Sha256dHash.leadingZeroBits_eq]
  omega

/-- **Reports that are made up for**: the last of them is what is saved. -/
theorem exec_reports (file : Option Lifetime) (reporter : ReportForever)
    {pending : List Reading} (h : pending ≠ []) :
    exec Reporting.step ⟨file, some reporter⟩ (pending.map .report) =
      some ⟨some (pending.foldl ReportForever.report reporter).lifetime,
        some (pending.foldl ReportForever.report reporter)⟩ := by
  induction pending generalizing file reporter with
  | nil => exact absurd rfl h
  | cons reading pending ih =>
    have hstep : Reporting.step ⟨file, some reporter⟩ (.report reading) =
        some ⟨some (reporter.report reading).lifetime, some (reporter.report reading)⟩ := rfl
    rw [List.map_cons, exec_cons, hstep, Option.bind_some, List.foldl_cons]
    cases pending with
    | nil => rfl
    | cons reading' pending => exact ih _ _ (by simp)

/-! ### One event -/

variable {disk disk' : Disk} {reporter : ReportForever} {session : Keeping}

theorem behind_off (format : LifetimeFormat) (disk : Disk) :
    Behind format (off disk) (.stopped (format.read disk.file none)) where
  file := rfl
  session _ h := nomatch h
  saved _ h := nomatch h

/-- A session starts with what is saved. -/
theorem Behind.start (h : Behind format k s) (now : UInt64) :
    Behind format { k with session := some ⟨.start (format.read k.disk.file none) now, none⟩ }
      { s with reporter := some (.start s.file now) } where
  file := h.file
  session := by
    intro session hsession
    obtain rfl := Option.some.inj hsession
    refine ⟨_, rfl, ⟨[], by rw [h.file]; rfl, .loaded⟩, ?_⟩
    change (Lifetime.load (format.read k.disk.file none) now).bestZeroBits < 2 ^ 32
    cases hread : format.read k.disk.file none with
    | none => exact Nat.two_pow_pos 32
    | some lifetime =>
      have hlt : lifetime.bestZeroBits < 2 ^ 32 := lt_of_read hread
      exact hlt
  saved := by
    intro session hsession hsaving
    obtain rfl := Option.some.inj hsession
    exact absurd hsaving (by simp)

/-- A report puts the session one further ahead. -/
theorem Ahead.report (h : Ahead format disk reporter session) (reading : Reading) :
    Ahead format disk reporter ⟨session.reporter.report reading,
      some (save (format.bytes (session.reporter.report reading).lifetime))⟩ where
  pending := by
    obtain ⟨pending, hreporter, -⟩ := h.pending
    refine ⟨pending ++ [reading], ?_, .creating (by simp)⟩
    rw [List.foldl_append, ← hreporter]
    rfl
  lt := by
    have hbits := leadingZeroBits_lt reading.stats.best
    rw [ReportForever.report, Lifetime.bestZeroBits_record]
    exact max_lt h.lt hbits

/-- **What an operation of a save can do**: it leaves the file and the session goes on, or it
was the rename, and the file is what the session has. -/
theorem Ahead.perform {o : SaveOp} {next : Except IoError Unit → SaveProg}
    {answer : Except IoError Unit} {left : Option ℕ} (h : Ahead format disk reporter session)
    (hsaving : session.saving = some (.op o next))
    (hserve : disk.serve o answer left = some disk') :
    (disk'.file = disk.file ∧ next answer ≠ .ret (.ok ()) ∧
      Ahead format disk' reporter ⟨session.reporter, some (next answer)⟩) ∨
    ∃ pending, pending ≠ [] ∧ session.reporter = pending.foldl ReportForever.report reporter ∧
      disk'.file = some (format.bytes session.reporter.lifetime) ∧ next answer = .ret (.ok ()) := by
  obtain ⟨⟨pending, hreporter, hstage⟩, hlt⟩ := h
  rw [hsaving] at hstage
  generalize hcode : (some (.op o next) : Option SaveProg) = saving at hstage
  cases hstage with
  | loaded => exact absurd hcode (by simp)
  | failed error => exact absurd hcode (by simp)
  | saved => exact absurd hcode (by simp)
  | creating hpending =>
    cases hcode
    obtain rfl := Option.some.inj hserve
    refine Or.inl ⟨rfl, ?_, ⟨pending, hreporter, ?_⟩, hlt⟩
    · cases answer <;> simp [writing]
    · cases answer with
      | error error => exact .failed error
      | ok _ => exact .writing hpending
  | writing hpending =>
    cases hcode
    cases answer with
    | error error =>
      have hfile : disk'.file = disk.file := by
        cases left <;> obtain rfl := Option.some.inj hserve <;> rfl
      exact Or.inl ⟨hfile, by simp, ⟨pending, hreporter, .failed error⟩, hlt⟩
    | ok _ =>
      obtain rfl := Option.some.inj hserve
      exact Or.inl ⟨rfl, by simp [replacing], ⟨pending, hreporter, .replacing hpending rfl⟩,
        hlt⟩
  | replacing hpending htemporary =>
    cases hcode
    cases answer with
    | error error =>
      obtain rfl := Option.some.inj hserve
      exact Or.inl ⟨rfl, by simp, ⟨pending, hreporter, .failed error⟩, hlt⟩
    | ok _ =>
      rw [Disk.serve, htemporary] at hserve
      obtain rfl := Option.some.inj hserve
      exact Or.inr ⟨pending, hpending, hreporter, rfl, rfl⟩

/-- The file is as it was, or is the whole text of some totals. -/
def Whole (format : LifetimeFormat) (k k' : Keeper) : Prop :=
  k'.disk.file = k.disk.file ∨
    ∃ lifetime, lifetime.bestZeroBits < 2 ^ 32 ∧ k'.disk.file = some (format.bytes lifetime)

theorem Whole.trans {k₁ : Keeper} (h : Whole format k k₁) (h' : Whole format k₁ k') :
    Whole format k k' := by
  rcases h' with hsame' | ⟨lifetime, hlt, hfile⟩
  · rcases h with hsame | ⟨lifetime, hlt, hfile⟩
    · exact Or.inl (hsame'.trans hsame)
    · exact Or.inr ⟨lifetime, hlt, hsame'.trans hfile⟩
  · exact Or.inr ⟨lifetime, hlt, hfile⟩

/-- **The step lemma.** What the session has done is made up for when it has saved. -/
theorem Behind.of_step (h : Behind format k s) (hreads : event.Reads)
    (hstep : step format k event = some k') :
    ∃ actions s', exec Reporting.step s actions = some s' ∧ Behind format k' s' ∧
      Whole format k k' := by
  cases event with
  | start now fault =>
    obtain rfl : fault = none := hreads
    obtain rfl := Option.some.inj hstep
    exact ⟨[.start now], _, rfl, h.start now, Or.inl rfl⟩
  | stop =>
    obtain rfl := Option.some.inj hstep
    exact ⟨[], s, rfl, ⟨h.file, fun _ h => (nomatch h), fun _ h => (nomatch h)⟩, Or.inl rfl⟩
  | report reading =>
    rw [step] at hstep
    split at hstep
    · exact absurd hstep (by simp)
    · next session hsession =>
      split_ifs at hstep
      obtain rfl := Option.some.inj hstep
      obtain ⟨reporter, hreporter, hahead⟩ := h.session session hsession
      refine ⟨[], s, rfl, ⟨h.file, ?_, ?_⟩, Or.inl rfl⟩
      · intro session' hsession'
        obtain rfl := Option.some.inj hsession'
        exact ⟨reporter, hreporter, hahead.report reading⟩
      · intro session' hsession' hsaving
        obtain rfl := Option.some.inj hsession'
        exact absurd (Option.some.inj hsaving) (by simp [save])
  | perform answer left =>
    rw [step] at hstep
    split at hstep
    · next r o next hsession =>
      obtain ⟨disk', hserve, rfl⟩ := Option.map_eq_some_iff.mp hstep
      obtain ⟨reporter, hreporter, hahead⟩ := h.session _ hsession
      obtain ⟨hfile, hgoes, hahead'⟩ | ⟨pending, hpending, hmade, hfile, hsaved⟩ :=
        hahead.perform rfl hserve
      · refine ⟨[], s, rfl, ⟨by rw [h.file, hfile], ?_, ?_⟩, Or.inl hfile⟩
        · intro session' hsession'
          obtain rfl := Option.some.inj hsession'
          exact ⟨reporter, hreporter, hahead'⟩
        · intro session' hsession' hsaving
          obtain rfl := Option.some.inj hsession'
          exact absurd (Option.some.inj hsaving) hgoes
      · -- The rename: all the reports before it are made in the run.
        have hs : s = ⟨s.file, some reporter⟩ := by rw [← hreporter]
        have hexec := exec_reports s.file reporter hpending
        dsimp only at hmade hfile
        rw [← hs, ← hmade] at hexec
        have hlt : r.lifetime.bestZeroBits < 2 ^ 32 := hahead.lt
        refine ⟨_, _, hexec, ⟨by rw [hfile, read_bytes hlt], ?_, ?_⟩,
          Or.inr ⟨_, hlt, hfile⟩⟩
        · intro session' hsession'
          obtain rfl := Option.some.inj hsession'
          exact ⟨r, rfl, ⟨[], rfl, by rw [hsaved]; exact .saved⟩, hlt⟩
        · intro session' hsession' _
          obtain rfl := Option.some.inj hsession'
          rfl
    · exact absurd hstep (by simp)

/-- **The run lemma.** -/
theorem Behind.of_exec (h : Behind format k s) (hreads : ∀ event ∈ events, event.Reads)
    (hexec : exec (step format) k events = some k') :
    ∃ actions s', exec Reporting.step s actions = some s' ∧ Behind format k' s' ∧
      Whole format k k' := by
  induction events generalizing k s with
  | nil =>
    obtain rfl := Option.some.inj hexec
    exact ⟨[], s, rfl, h, Or.inl rfl⟩
  | cons event events ih =>
    obtain ⟨k₁, hstep, hrest⟩ := Option.bind_eq_some_iff.mp hexec
    obtain ⟨hread, hreads⟩ := List.forall_mem_cons.mp hreads
    obtain ⟨first, s₁, hfirst, h₁, hwhole₁⟩ := h.of_step hread hstep
    obtain ⟨rest, s', hexec', h', hwhole'⟩ := ih h₁ hreads hrest
    refine ⟨first ++ rest, s', ?_, h', hwhole₁.trans hwhole'⟩
    rw [exec_append, hfirst]
    exact hexec'

/-! ### Whole runs -/

/-- A number in decimal digits, and what is behind the character after it. -/
def readNumber (s : Str) : ℕ × Str :=
  (Nat.ofDigitChars 10 (s.takeWhile Char.isDigit) 0, (s.dropWhile Char.isDigit).drop 1)

/-- A number and what is behind it. -/
def writeNumber (n : ℕ) (rest : Str) : Str := Nat.toDigits 10 n ++ ',' :: rest

theorem readNumber_writeNumber (n : ℕ) (rest : Str) :
    readNumber (writeNumber n rest) = (n, rest) := by
  have hdigits : ∀ c ∈ Nat.toDigits 10 n, c.isDigit = true :=
    fun _ hc => Nat.isDigit_of_mem_toDigits (by decide) (by decide) hc
  have hvalue : Nat.ofDigitChars 10 (Nat.toDigits 10 n) 0 = n := Nat.ofDigitChars_ten_toDigits
  have hcomma : ¬ ','.isDigit = true := by decide
  rw [readNumber, writeNumber, List.takeWhile_append_of_pos hdigits,
    List.dropWhile_append_of_pos hdigits, List.takeWhile_cons_of_neg hcomma,
    List.dropWhile_cons_of_neg hcomma, List.append_nil, hvalue]
  rfl

/-- A plain format: the numbers one after the other, and the hash behind them. -/
def plainFormat : LifetimeFormat where
  print lifetime :=
    writeNumber lifetime.totalHashes.toNat <| writeNumber lifetime.bestZeroBits <|
      writeNumber lifetime.sessions.toNat <| writeNumber lifetime.firstRun.toNat <|
        writeNumber lifetime.lastRun.toNat lifetime.bestHash
  parse text :=
    let (totalHashes, text) := readNumber text
    let (bestZeroBits, text) := readNumber text
    let (sessions, text) := readNumber text
    let (firstRun, text) := readNumber text
    let (lastRun, text) := readNumber text
    if bestZeroBits < 2 ^ 32 then
      some ⟨.ofNat totalHashes, text, bestZeroBits, .ofNat sessions, .ofNat firstRun,
        .ofNat lastRun⟩
    else none
  parse_print lifetime h := by
    simp only [readNumber_writeNumber, if_pos h, UInt64.ofNat_toNat]
  lt_of_parse text lifetime h := by
    dsimp only at h
    split_ifs at h with hlt
    obtain rfl := Option.some.inj h
    exact hlt

/-- A session that saves. -/
def sampleBefore : List KeeperEvent :=
  [.start 1600000000 none, .report Reporting.sampleReading, .perform (.ok ()) none,
    .perform (.ok ()) none, .perform (.ok ()) none]

/-- It reports again, and is ended when seven bytes are written; another one starts. -/
def sampleAfter : List KeeperEvent :=
  [.report Reporting.sampleReading, .perform (.ok ()) none,
    .perform (.error .unexpectedEof) (some 7), .stop, .start 1700000000 none]

end Keeper

end SoloMiner
