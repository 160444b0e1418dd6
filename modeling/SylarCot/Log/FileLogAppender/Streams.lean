/-
  SylarCot.Log.FileLogAppender.Streams
  ────────────────────────────────────
  **FILE APPENDERS WITH THEIR BUFFERS AND OFFSETS.**

  Every `FileLogAppender` has a stream of its own.  A stream keeps what is inserted in
  its buffer; when a text does not fit, and when it is closed, it writes at its own
  offset, not at the end of the file.  A program has any number of appenders on files
  by name, two of them possibly on the same.

  When a stream writes is the library's matter: `spills buffer text` says whether a text
  that is inserted goes to the file, with the buffer before it.

    • `own_file` — an appender whose file no other appender has behaves as its own calls
      alone would make it, whatever the others do and whatever fails; while no write of
      its own fails, its file and its buffer together are the file of its `FileLog`;
    • `shared_file_iff` — once they are all destroyed, appenders on one file have kept all
      their texts exactly if at most one of them has written anything.
-/
import SylarCot.Library.Overlay
import SylarCot.Log.FileLogAppender.FileLogAppender
import SylarCot.Log.LogFormatter.Meaning

namespace SylarCot.Log

open Library

variable {AppenderId : Type*}

/-! ## §1. Streams. -/

/-- `std::ofstream` with its buffer and the offset at which it writes next. -/
structure FileStream extends OFStream where
  buffer : Str := []
  position : Nat := 0

/-- What of a text reaches the file. -/
def Outcome.reaches (text : Str) : Outcome → Str
  | .written => text
  | .fails n => text.take n

namespace FileStream

/-- Write at the offset of the stream: the stream and the file's content afterwards. -/
def write (s : FileStream) (text content : Str) : FileStream × Str :=
  ({ s with position := s.position + text.length }, writeAt '\x00' s.position text content)

/-- `<< text` on an open file: a text that does not fit is written behind the buffer.  If that
fails, the buffer keeps what it held. -/
def put (spills : Str → Str → Bool) (s : FileStream) (outcome : Outcome) (text content : Str) :
    FileStream × Str :=
  if spills s.buffer text = true then
    let r := s.write (outcome.reaches (s.buffer ++ text)) content
    if outcome = .written then ({ r.1 with buffer := [] }, r.2) else ({ r.1 with badbit := true }, r.2)
  -- nothing reaches the file yet
  else ({ s with buffer := s.buffer ++ text }, content)

/-- `<< text` -/
def insert (spills : Str → Str → Bool) (s : FileStream) (outcome : Outcome) (text content : Str) :
    FileStream × Str :=
  if s.ok = true then
    if s.is_open = true then s.put spills outcome text content
    else ({ s with badbit := true }, content)
  -- the sentry fails
  else ({ s with failbit := true }, content)

/-- `close()`: what is in the buffer is written, if there is anything; what does not reach the
file is lost. -/
def close (s : FileStream) (outcome : Outcome) (closes : Bool) (content : Str) : FileStream × Str :=
  if s.is_open = true then
    let r := s.write (outcome.reaches s.buffer) content
    ({ r.1 with
        toOFStream := s.toOFStream.close (closes && (s.buffer.isEmpty || outcome = .written))
        buffer := [] }, r.2)
  else ({ s with toOFStream := s.toOFStream.close closes }, content)

/-- `open(name)`: a file that has just been opened is written from its beginning. -/
def openFile (s : FileStream) (opens : Bool) (content : Str) : FileStream × Str :=
  let r := s.toOFStream.openFile opens content
  if s.is_open = false ∧ opens = true then ({ toOFStream := r.1 }, r.2)
  -- a stream that is already open stays where it is, as does one whose file cannot be opened
  else ({ s with toOFStream := r.1 }, r.2)

end FileStream

/-! ## §2. Appenders and files. -/

/-- The file appenders of a program, and the files by name. -/
structure FileSystem (AppenderId : Type*) where
  m_filename : AppenderId → Str
  m_filestream : AppenderId → FileStream := fun _ => {}
  files : Str → Str

/-- A call on an appender, with what the system does during it; a `log` has the C library as
it finds it. -/
inductive StreamCall where
  | log (lib : Libc) (fmter : LogFormatter) (event : LogEvent) (outcome : Outcome)
  | reopen (outcome : Outcome) (closes opens : Bool)
  /-- The destructor closes the stream, whatever its state. -/
  | destroy (outcome : Outcome)

/-- How a call's write to the file ends, if it makes one. -/
def StreamCall.outcome : StreamCall → Outcome
  | .log _ _ _ outcome => outcome
  | .reopen outcome _ _ => outcome
  | .destroy outcome => outcome

namespace FileSystem

/-- What is in the file of an appender. -/
def content (s : FileSystem AppenderId) (a : AppenderId) : Str := s.files (s.m_filename a)

/-- With what its stream has yet to write. -/
def flushed (s : FileSystem AppenderId) (a : AppenderId) : Str :=
  s.content a ++ (s.m_filestream a).buffer

variable [DecidableEq AppenderId]

/-- Replace the stream of an appender, and the content of its file. -/
def put (s : FileSystem AppenderId) (a : AppenderId) (r : FileStream × Str) :
    FileSystem AppenderId where
  m_filename := s.m_filename
  m_filestream := Function.update s.m_filestream a r.1
  files := Function.update s.files (s.m_filename a) r.2

/-- `FileLogAppender::log` -/
def log (spills : Str → Str → Bool) (s : FileSystem AppenderId) (a : AppenderId) (lib : Libc)
    (fmter : LogFormatter) (event : LogEvent) (outcome : Outcome) : FileSystem AppenderId :=
  s.put a ((s.m_filestream a).insert spills outcome (fmter.format lib event) (s.content a))

/-- `FileLogAppender::reopen`, with the bool it returns. -/
def reopen (s : FileSystem AppenderId) (a : AppenderId) (outcome : Outcome) (closes opens : Bool) :
    FileSystem AppenderId × Bool :=
  let r := if (s.m_filestream a).ok = true then (s.m_filestream a).close outcome closes (s.content a)
    else (s.m_filestream a, s.content a)
  let r' := r.1.openFile opens r.2
  (s.put a r', r'.1.ok)

/-- `FileLogAppender::~FileLogAppender` -/
def destroy (s : FileSystem AppenderId) (a : AppenderId) (outcome : Outcome) : FileSystem AppenderId :=
  s.put a ((s.m_filestream a).close outcome true (s.content a))

/-- One call on one appender. -/
def call (spills : Str → Str → Bool) (s : FileSystem AppenderId) :
    AppenderId × StreamCall → FileSystem AppenderId
  | (a, .log lib fmter event outcome) => s.log spills a lib fmter event outcome
  | (a, .reopen outcome closes opens) => (s.reopen a outcome closes opens).1
  | (a, .destroy outcome) => s.destroy a outcome

/-- Calls one after another. -/
def run (spills : Str → Str → Bool) (s : FileSystem AppenderId)
    (calls : List (AppenderId × StreamCall)) : FileSystem AppenderId :=
  calls.foldl (call spills) s

variable (spills : Str → Str → Bool) {s : FileSystem AppenderId} {a b : AppenderId}

/-! ## §3. What a call touches. -/

@[simp] theorem m_filestream_put (r : FileStream × Str) : (s.put a r).m_filestream a = r.1 :=
  Function.update_self ..

/-- What holds of the new stream and of every other one holds of all streams. -/
theorem forall_put {r : FileStream × Str} (p : AppenderId → FileStream → Prop) (hnew : p a r.1)
    (hothers : ∀ b, b ≠ a → p b (s.m_filestream b)) : ∀ b, p b ((s.put a r).m_filestream b) :=
  (Function.forall_update_iff s.m_filestream p).mpr ⟨hnew, hothers⟩

@[simp] theorem content_put (r : FileStream × Str) : (s.put a r).content a = r.2 :=
  Function.update_self ..

/-- **The frame of a call**: other appenders, and their files. -/
theorem put_of_ne (hab : b ≠ a) (hfile : s.m_filename b ≠ s.m_filename a) (r : FileStream × Str) :
    (s.put a r).m_filestream b = s.m_filestream b ∧ (s.put a r).content b = s.content b :=
  ⟨Function.update_of_ne hab .., Function.update_of_ne hfile ..⟩

/-- What a call makes of the stream of its appender and the content of its file. -/
def effect (spills : Str → Str → Bool) (r : FileStream × Str) : StreamCall → FileStream × Str
  | .log lib fmter event outcome => r.1.insert spills outcome (fmter.format lib event) r.2
  | .reopen outcome closes opens =>
      let c := if r.1.ok = true then r.1.close outcome closes r.2 else r
      c.1.openFile opens c.2
  | .destroy outcome => r.1.close outcome true r.2

/-- Every call is one `put`. -/
theorem call_eq_put (s : FileSystem AppenderId) (a : AppenderId) (c : StreamCall) :
    s.call spills (a, c) = s.put a (effect spills (s.m_filestream a, s.content a) c) := by
  cases c with
  | log lib fmter event outcome => rfl
  | reopen outcome closes opens => rfl
  | destroy outcome => rfl

/-! ## §4. An appender with a file of its own. -/

/-- Appenders before their constructors have opened anything. -/
def unopened (filename : AppenderId → Str) (files : Str → Str) : FileSystem AppenderId where
  m_filename := filename
  files := files

/-- The calls on one appender. -/
def callsOn (a : AppenderId) (calls : List (AppenderId × StreamCall)) :
    List (AppenderId × StreamCall) :=
  calls.filter fun c => c.1 = a

/-- No other appender has the file. -/
def OwnFile (s : FileSystem AppenderId) (a : AppenderId) : Prop :=
  ∀ b, s.m_filename b = s.m_filename a → b = a

/-- **The stream and the file** of such an appender are what its own calls make of them. -/
theorem own_run (a : AppenderId) (calls : List (AppenderId × StreamCall)) :
    ∀ s : FileSystem AppenderId, s.OwnFile a →
      ((s.run spills calls).m_filestream a, (s.run spills calls).content a)
        = (callsOn a calls).foldl (fun r c => effect spills r c.2) (s.m_filestream a, s.content a) := by
  induction calls with
  | nil => exact fun _ _ => rfl
  | cons c calls ih =>
      obtain ⟨b, c⟩ := c
      intro s hown
      have hrest := ih (s.call spills (b, c)) (by rw [call_eq_put]; exact hown)
      refine hrest.trans ?_
      rw [call_eq_put]
      by_cases hba : b = a
      · subst hba
        rw [m_filestream_put, content_put,
          show callsOn b ((b, c) :: calls) = (b, c) :: callsOn b calls from
            List.filter_cons_of_pos (decide_eq_true rfl)]
        rfl
      · -- a call on another appender, on another file
        obtain ⟨hstream, hcontent⟩ := put_of_ne (s := s) (Ne.symm hba)
          (fun hfile => hba (hown b hfile.symm)) (effect spills (s.m_filestream b, s.content b) c)
        rw [hstream, hcontent, show callsOn a ((b, c) :: calls) = callsOn a calls from
          List.filter_cons_of_neg (by simpa using hba)]

/-- A stream and its file as they would be if the stream wrote at once. -/
def atOnce (r : FileStream × Str) : OFStream × Str := (r.1.toOFStream, r.2 ++ r.1.buffer)

/-- An open stream is at the end of its file, a closed one has nothing to write. -/
structure AtEnd (r : FileStream × Str) : Prop where
  position : r.1.is_open = true → r.1.position = r.2.length
  kept : r.1.is_open = false → r.1.buffer = []

omit [DecidableEq AppenderId] in
/-- **`<<` on a file of its own.** -/
theorem AtEnd.insert {r : FileStream × Str} (h : AtEnd r) (text : Str) :
    AtEnd (r.1.insert spills .written text r.2) ∧
      atOnce (r.1.insert spills .written text r.2)
        = (atOnce r).1.insert .written text (atOnce r).2 := by
  obtain ⟨⟨o, buffer, position⟩, content⟩ := r
  obtain ⟨hend, hkept⟩ := h
  show AtEnd (FileStream.insert spills ⟨o, buffer, position⟩ .written text content) ∧
    atOnce (FileStream.insert spills ⟨o, buffer, position⟩ .written text content)
      = o.insert .written text (content ++ buffer)
  unfold FileStream.insert OFStream.insert
  by_cases hok : o.ok = true
  · rw [if_pos hok, if_pos hok]
    by_cases hopen : o.is_open = true
    · rw [if_pos hopen, if_pos hopen]
      have hposition : position = content.length := hend hopen
      have hclosed : ¬ o.is_open = false := by
        rw [hopen]
        exact Bool.false_ne_true.symm
      unfold FileStream.put
      by_cases hspills : spills buffer text = true
      · -- the whole of it is appended, as the stream is at the end
        have hwrite : writeAt '\x00' position (buffer ++ text) content = content ++ (buffer ++ text) := by
          rw [hposition, writeAt_end]
        rw [if_pos hspills]
        refine ⟨⟨fun _ => ?_, fun _ => rfl⟩, ?_⟩
        · show position + (buffer ++ text).length = (writeAt '\x00' position (buffer ++ text) content).length
          rw [hwrite, hposition]
          exact List.length_append.symm
        · show (o, writeAt '\x00' position (buffer ++ text) content ++ []) = (o, content ++ buffer ++ text)
          rw [hwrite, List.append_nil, List.append_assoc]
      · rw [if_neg hspills]
        refine ⟨⟨hend, fun h => absurd h hclosed⟩, ?_⟩
        show (o, content ++ (buffer ++ text)) = (o, content ++ buffer ++ text)
        rw [List.append_assoc]
    · rw [if_neg hopen, if_neg hopen]
      exact ⟨⟨hend, hkept⟩, rfl⟩
  · -- only the state of the stream changes
    rw [if_neg hok, if_neg hok]
    exact ⟨⟨hend, hkept⟩, rfl⟩

omit [DecidableEq AppenderId] in
theorem AtEnd.close {r : FileStream × Str} (h : AtEnd r) (closes : Bool) :
    AtEnd (r.1.close .written closes r.2) ∧
      atOnce (r.1.close .written closes r.2) = ((atOnce r).1.close closes, (atOnce r).2) := by
  obtain ⟨⟨o, buffer, position⟩, content⟩ := r
  obtain ⟨hend, hkept⟩ := h
  unfold FileStream.close
  by_cases hopen : o.is_open = true
  · have hposition : position = content.length := hend hopen
    rw [if_pos hopen]
    refine ⟨⟨(fun h => by cases h), fun _ => rfl⟩, ?_⟩
    show (o.close (closes && (buffer.isEmpty || true)), writeAt '\x00' position buffer content ++ [])
      = (o.close closes, content ++ buffer)
    rw [Bool.or_true, Bool.and_true, hposition, writeAt_end, List.append_nil]
  · rw [if_neg hopen]
    exact ⟨⟨(fun h => by cases h), fun _ => hkept (Bool.eq_false_iff.mpr hopen)⟩, rfl⟩

omit [DecidableEq AppenderId] in
theorem AtEnd.openFile {r : FileStream × Str} (h : AtEnd r) (opens : Bool) :
    AtEnd (r.1.openFile opens r.2) ∧
      atOnce (r.1.openFile opens r.2) = (atOnce r).1.openFile opens (atOnce r).2 := by
  obtain ⟨⟨o, buffer, position⟩, content⟩ := r
  obtain ⟨hend, hkept⟩ := h
  show AtEnd (FileStream.openFile ⟨o, buffer, position⟩ opens content) ∧
    atOnce (FileStream.openFile ⟨o, buffer, position⟩ opens content)
      = o.openFile opens (content ++ buffer)
  unfold FileStream.openFile OFStream.openFile
  by_cases hopens : o.is_open = false ∧ opens = true
  · simp only [if_pos hopens]
    exact ⟨⟨fun _ => rfl, fun _ => rfl⟩, rfl⟩
  · simp only [if_neg hopens]
    exact ⟨⟨hend, hkept⟩, rfl⟩

end FileSystem

/-- The call on an appender whose stream writes at once and never fails to write. -/
def FileLog.streamCall (v : FileLog) : StreamCall → FileLog
  | .log lib fmter event _ => v.log lib fmter event .written
  | .reopen _ closes opens => (v.reopen closes opens).1
  | .destroy _ => v.put (v.stream.close true, v.content)

/-- Calls one after another. -/
def FileLog.streamRun (v : FileLog) (calls : List (AppenderId × StreamCall)) : FileLog :=
  calls.foldl (fun v c => v.streamCall c.2) v

namespace FileSystem

variable [DecidableEq AppenderId] (spills : Str → Str → Bool) {s : FileSystem AppenderId}
  {a b : AppenderId}

omit [DecidableEq AppenderId] in
/-- **A call that does not fail to write** is that of the `FileLog`. -/
theorem AtEnd.effect {r : FileStream × Str} {v : FileLog} (h : AtEnd r)
    (hv : atOnce r = (v.stream, v.content)) {c : StreamCall} (hc : c.outcome = .written) :
    AtEnd (FileSystem.effect spills r c) ∧
      atOnce (FileSystem.effect spills r c) = ((v.streamCall c).stream, (v.streamCall c).content) := by
  obtain ⟨hstream, hcontent⟩ := Prod.mk.inj hv
  cases c with
  | log lib fmter event outcome =>
      obtain rfl : outcome = .written := hc
      obtain ⟨hend, hinsert⟩ := h.insert spills (fmter.format lib event)
      refine ⟨hend, hinsert.trans ?_⟩
      show (atOnce r).1.insert _ _ (atOnce r).2 = ((v.put _).stream, (v.put _).content)
      rw [FileLog.stream_put, FileLog.content_put, hv]
  | reopen outcome closes opens =>
      obtain rfl : outcome = .written := hc
      have hok : r.1.ok = v.stream.ok := congrArg OFStream.ok hstream
      show AtEnd (FileSystem.effect spills r (.reopen .written closes opens)) ∧
        atOnce (FileSystem.effect spills r (.reopen .written closes opens))
          = ((v.put _).stream, (v.put _).content)
      rw [FileLog.stream_put, FileLog.content_put]
      unfold FileSystem.effect
      simp only
      rw [hok]
      by_cases hv' : v.stream.ok = true
      · obtain ⟨hclosed, hclose⟩ := h.close closes
        obtain ⟨hend, hopen⟩ := hclosed.openFile opens
        rw [if_pos hv', if_pos hv']
        refine ⟨hend, hopen.trans ?_⟩
        rw [hclose, hv]
      · obtain ⟨hend, hopen⟩ := h.openFile opens
        rw [if_neg hv', if_neg hv']
        refine ⟨hend, hopen.trans ?_⟩
        rw [hv]
  | destroy outcome =>
      obtain rfl : outcome = .written := hc
      obtain ⟨hend, hclose⟩ := h.close true
      refine ⟨hend, hclose.trans ?_⟩
      show ((atOnce r).1.close true, (atOnce r).2) = ((v.put _).stream, (v.put _).content)
      rw [FileLog.stream_put, FileLog.content_put, hv]

omit [DecidableEq AppenderId] in
theorem AtEnd.effects (calls : List (AppenderId × StreamCall)) :
    ∀ {r : FileStream × Str} {v : FileLog}, AtEnd r → atOnce r = (v.stream, v.content) →
      (∀ c ∈ calls, c.2.outcome = .written) →
      atOnce (calls.foldl (fun r c => FileSystem.effect spills r c.2) r)
        = ((v.streamRun calls).stream, (v.streamRun calls).content) := by
  induction calls with
  | nil => exact fun _ hv _ => hv
  | cons c calls ih =>
      intro r v h hv hcalls
      obtain ⟨hend, hcall⟩ := h.effect spills hv (hcalls c List.mem_cons_self)
      exact ih hend hcall (fun x hx => hcalls x (List.mem_cons_of_mem c hx))

/-- **AN APPENDER WITH A FILE OF ITS OWN**, from its constructor on.  Whatever the others do
and whatever fails, its stream, its buffer and its file are what its own calls alone make of
them; and while none of its own writes fails, the stream and the flushed content of the file
are those of a `FileLog`. -/
theorem own_file (spills : Str → Str → Bool) (filename : AppenderId → Str) (files : Str → Str)
    (a : AppenderId) (hown : ∀ b, filename b = filename a → b = a)
    (calls : List (AppenderId × StreamCall)) :
    ((unopened filename files).run spills calls).m_filestream a
        = ((unopened filename files).run spills (callsOn a calls)).m_filestream a ∧
      ((unopened filename files).run spills calls).content a
        = ((unopened filename files).run spills (callsOn a calls)).content a ∧
      ((∀ c ∈ calls, c.1 = a → c.2.outcome = .written) →
        (((unopened filename files).run spills calls).m_filestream a).toOFStream
            = (FileLog.streamRun ⟨{ m_filename := filename a }, files⟩ (callsOn a calls)).stream ∧
          ((unopened filename files).run spills calls).flushed a
            = (FileLog.streamRun ⟨{ m_filename := filename a }, files⟩ (callsOn a calls)).content) := by
  have hall := own_run spills a calls (unopened filename files) hown
  have halone := own_run spills a (callsOn a calls) (unopened filename files) hown
  rw [show callsOn a (callsOn a calls) = callsOn a calls from by
    unfold callsOn; rw [List.filter_filter]; simp, ← hall] at halone
  refine ⟨congrArg Prod.fst halone.symm, congrArg Prod.snd halone.symm, fun hwritten => ?_⟩
  have hstart : AtEnd ((unopened filename files).m_filestream a, (unopened filename files).content a) :=
    ⟨(fun hopen => by cases hopen), fun _ => rfl⟩
  have hwrite := hstart.effects spills (callsOn a calls)
    (v := ⟨{ m_filename := filename a }, files⟩) (congrArg _ (List.append_nil _))
    fun c hc => hwritten c (List.mem_filter.mp hc).1 (of_decide_eq_true (List.mem_filter.mp hc).2)
  rw [← hall] at hwrite
  exact Prod.mk.inj hwrite

/-- A text goes to the file that the rest of a buffer of `size` chars does not take. -/
def fillsUp (size : Nat) (buffer text : Str) : Bool := size ≤ buffer.length + text.length

/-- Two appenders on two files; the first writes `x` and reopens when its file cannot be opened,
the second cannot write. -/
theorem own_file_twoFiles :
    ((unopened (fun b : Bool => [if b then 'b' else 'a']) (fun _ => [])).run (fillsUp 2)
        [(false, .reopen .written true true), (true, .reopen .written true true),
          (true, .log epochLibc (LogFormatter.new xxSrcs ['y', 'z']) sampleEvent (.fails 0)),
          (false, .log epochLibc (LogFormatter.new xxSrcs ['x']) sampleEvent .written),
          (false, .reopen .written true false)]).flushed false
      = ['x'] :=
  ((own_file (fillsUp 2) (fun b : Bool => [if b then 'b' else 'a']) (fun _ => []) false
    (by decide) _).2.2 (by decide)).2.trans (by decide)

/-! ## §5. Appenders that share a file. -/

/-- The constructor of an appender, without errors. -/
def construct (a : AppenderId) : AppenderId × StreamCall := (a, .reopen .written true true)

/-- A `log` on an appender, without errors. -/
def logCall (l : AppenderId × Libc × LogFormatter × LogEvent) : AppenderId × StreamCall :=
  (l.1, .log l.2.1 l.2.2.1 l.2.2.2 .written)

/-- The destructor of an appender, without errors. -/
def destruct (a : AppenderId) : AppenderId × StreamCall := (a, .destroy .written)

/-- The text of a `log`. -/
def logText (l : AppenderId × Libc × LogFormatter × LogEvent) : AppenderId × Str :=
  (l.1, l.2.2.1.format l.2.1 l.2.2.2)

/-- A stream that has just been opened. -/
def opened : FileStream := { is_open := true }

/-- The appenders are open at the beginning of their file, which is empty; others have not been
opened. -/
structure Constructed (s : FileSystem AppenderId) (filename : Str) (as : List AppenderId) :
    Prop where
  oneFile : ∀ a, s.m_filename a = filename
  fresh : ∀ a, s.m_filestream a = {} ∨ s.m_filestream a = FileSystem.opened
  opened : ∀ a ∈ as, s.m_filestream a = FileSystem.opened
  empty : as ≠ [] → s.files filename = []

/-- **A constructor** opens its stream and empties the file. -/
theorem construct_fresh (h : s.m_filestream a = {} ∨ s.m_filestream a = opened) :
    s.call spills (construct a) = s.put a (opened, []) := by
  show s.call spills (a, .reopen .written true true) = _
  rw [call_eq_put]
  unfold effect FileStream.openFile OFStream.openFile FileStream.close
  rcases h with hstream | hstream
  · rw [hstream]
    rfl
  · rw [hstream]
    rfl

theorem constructed_step {filename : Str} {as : List AppenderId} (h : s.Constructed filename as)
    (a : AppenderId) : (s.call spills (construct a)).Constructed filename (a :: as) := by
  rw [construct_fresh spills (h.fresh a)]
  refine ⟨h.oneFile, ?_, ?_, ?_⟩
  · exact forall_put (fun _ o => o = {} ∨ o = FileSystem.opened) (.inr rfl) fun b _ => h.fresh b
  · exact forall_put (fun b o => b ∈ a :: as → o = FileSystem.opened) (fun _ => rfl)
      fun b hba hb => h.opened b ((List.mem_cons.mp hb).resolve_left hba)
  · intro _
    show Function.update s.files (s.m_filename a) [] filename = []
    rw [h.oneFile a, Function.update_self]

theorem constructed_run {filename : Str} (bs : List AppenderId) :
    ∀ {s : FileSystem AppenderId} {as : List AppenderId}, s.Constructed filename as →
      (s.run spills (bs.map construct)).Constructed filename (bs.reverse ++ as) := by
  induction bs with
  | nil =>
      intro s as h
      exact h
  | cons b bs ih =>
      intro s as h
      rw [List.reverse_cons, List.append_assoc]
      exact ih (constructed_step spills h b)

/-- With a text inserted, the stream `r.1` has written a piece at its offset and keeps the
rest. -/
structure Passes (o : FileStream) (content text chunk : Str) (r : FileStream × Str) : Prop where
  position : r.1.position = o.position + chunk.length
  content : r.2 = writeAt '\x00' o.position chunk content
  buffer : o.buffer ++ text = chunk ++ r.1.buffer
  kept : r.1.is_open = false → r.1.buffer = []

omit [DecidableEq AppenderId] in
/-- **An open stream** passes on all that it has, or nothing. -/
theorem passes_put {o : FileStream} (hopen : o.is_open = true) (text content : Str) :
    (∃ chunk, Passes o content text chunk (o.put spills .written text content)) ∧
      (o.put spills .written text content).1.toOFStream = o.toOFStream := by
  unfold FileStream.put
  by_cases hspills : spills o.buffer text = true
  · rw [if_pos hspills]
    exact ⟨⟨o.buffer ++ text, rfl, rfl, (List.append_nil _).symm, fun _ => rfl⟩, rfl⟩
  · rw [if_neg hspills]
    refine ⟨⟨[], rfl, (writeAt_nil ..).symm, rfl, fun hclosed => ?_⟩, rfl⟩
    rw [show o.is_open = false from hclosed] at hopen
    cases hopen

omit [DecidableEq AppenderId] in
/-- **The destructor** passes on what is left. -/
theorem passes_close {o : FileStream} (hkept : o.is_open = false → o.buffer = []) (content : Str) :
    (∃ chunk, Passes o content [] chunk (o.close .written true content)) ∧
      (o.close .written true content).1.buffer = [] := by
  unfold FileStream.close
  by_cases hopen : o.is_open = true
  · rw [if_pos hopen]
    exact ⟨⟨o.buffer, rfl, rfl, rfl, fun _ => rfl⟩, rfl⟩
  · rw [if_neg hopen]
    have hnil := hkept (Bool.eq_false_iff.mpr hopen)
    exact ⟨⟨[], rfl, (writeAt_nil ..).symm, List.append_nil _, fun _ => hnil⟩, hnil⟩

/-- The offsets and the file are those of an overlay of pieces, which are all that has been
inserted but what is in the buffers. -/
structure Overlays (s : FileSystem AppenderId) (filename : Str) (inserted : AppenderId → Str)
    (chunks : List (AppenderId × Str)) : Prop where
  oneFile : ∀ a, s.m_filename a = filename
  position : ∀ a, (s.m_filestream a).position = (({} : Overlay AppenderId Char).run '\x00' chunks).position a
  content : s.files filename = (({} : Overlay AppenderId Char).run '\x00' chunks).content
  share : ∀ a, inserted a = Overlay.share a chunks ++ (s.m_filestream a).buffer
  kept : ∀ a, (s.m_filestream a).is_open = false → (s.m_filestream a).buffer = []

/-- **A stream passes on a piece.** -/
theorem Overlays.put {filename : Str} {inserted : AppenderId → Str} {chunks : List (AppenderId × Str)}
    (h : s.Overlays filename inserted chunks) {r : FileStream × Str} {text chunk : Str}
    (hr : Passes (s.m_filestream a) (s.content a) text chunk r) :
    (s.put a r).Overlays filename (fun b => inserted b ++ if a = b then text else [])
      (chunks ++ [(a, chunk)]) := by
  have hrun : ({} : Overlay AppenderId Char).run '\x00' (chunks ++ [(a, chunk)])
      = (({} : Overlay AppenderId Char).run '\x00' chunks).write '\x00' (a, chunk) :=
    List.foldl_append
  refine ⟨h.oneFile, ?_, ?_, ?_, ?_⟩
  · rw [hrun]
    refine forall_put (fun b o => o.position = Function.update (Overlay.run '\x00' {} chunks).position a
      ((Overlay.run '\x00' {} chunks).position a + chunk.length) b) ?_ fun b hba => ?_
    · rw [Function.update_self, hr.position, h.position]
    · rw [Function.update_of_ne hba, h.position]
  · rw [hrun]
    show Function.update s.files (s.m_filename a) r.2 filename
      = writeAt '\x00' ((Overlay.run '\x00' {} chunks).position a) chunk
          (Overlay.run '\x00' {} chunks).content
    rw [h.oneFile a, Function.update_self, hr.content, h.position, ← h.content]
    exact congrArg (fun name => writeAt '\x00' _ chunk (s.files name)) (h.oneFile a)
  · refine forall_put (fun b o => inserted b ++ (if a = b then text else [])
      = Overlay.share b (chunks ++ [(a, chunk)]) ++ o.buffer) ?_ fun b hba => ?_
    · rw [Overlay.share_append, Overlay.share_singleton, h.share, if_pos rfl, if_pos rfl,
        List.append_assoc, hr.buffer, List.append_assoc]
    · rw [Overlay.share_append, Overlay.share_singleton, h.share, if_neg (Ne.symm hba),
        if_neg (Ne.symm hba), List.append_nil, List.append_nil]
  · exact forall_put (fun _ o => o.is_open = false → o.buffer = []) hr.kept fun b _ => h.kept b

/-- **`log`** on an open stream. -/
theorem overlays_log {filename : Str} {ws chunks : List (AppenderId × Str)}
    (h : s.Overlays filename (fun b => Overlay.share b ws) chunks)
    (l : AppenderId × Libc × LogFormatter × LogEvent)
    (hl : (s.m_filestream l.1).toOFStream = opened.toOFStream) :
    (∃ chunk, (s.call spills (logCall l)).Overlays filename
        (fun b => Overlay.share b (ws ++ [logText l])) (chunks ++ [(l.1, chunk)])) ∧
      ∀ b, ((s.call spills (logCall l)).m_filestream b).toOFStream = (s.m_filestream b).toOFStream := by
  have hinsert : s.call spills (logCall l)
      = s.put l.1 ((s.m_filestream l.1).put spills .written (logText l).2 (s.content l.1)) := by
    show s.put l.1 ((s.m_filestream l.1).insert spills .written (logText l).2 (s.content l.1)) = _
    have hok : (s.m_filestream l.1).ok = true := congrArg OFStream.ok hl
    have hopen : (s.m_filestream l.1).is_open = true := congrArg OFStream.is_open hl
    unfold FileStream.insert
    rw [if_pos hok, if_pos hopen]
  have hshare : (fun b => Overlay.share b (ws ++ [logText l]))
      = fun b => Overlay.share b ws ++ if l.1 = b then (logText l).2 else [] := by
    funext b
    rw [Overlay.share_append, Overlay.share_singleton]
    rfl
  obtain ⟨⟨chunk, hpasses⟩, hstream⟩ := passes_put spills
    (congrArg OFStream.is_open hl) (logText l).2 (s.content l.1)
  rw [hinsert, hshare]
  exact ⟨⟨chunk, h.put hpasses⟩,
    forall_put (fun b o => o.toOFStream = (s.m_filestream b).toOFStream) hstream fun _ _ => rfl⟩

theorem overlays_logs {filename : Str} {as : List AppenderId}
    (logs : List (AppenderId × Libc × LogFormatter × LogEvent)) (hlogs : ∀ l ∈ logs, l.1 ∈ as) :
    ∀ {s : FileSystem AppenderId} {ws chunks : List (AppenderId × Str)},
      s.Overlays filename (fun b => Overlay.share b ws) chunks →
      (∀ a ∈ as, (s.m_filestream a).toOFStream = opened.toOFStream) →
      ∃ chunks', (s.run spills (logs.map logCall)).Overlays filename
        (fun b => Overlay.share b (ws ++ logs.map logText)) chunks' := by
  -- the streams stay open, so every `log` finds its own in order
  induction logs with
  | nil =>
      intro s ws chunks h _
      simp only [List.map_nil, List.append_nil]
      exact ⟨chunks, h⟩
  | cons l logs ih =>
      intro s ws chunks h hopen
      obtain ⟨⟨chunk, hfirst⟩, hstreams⟩ := overlays_log spills h l
        (hopen l.1 (hlogs l List.mem_cons_self))
      obtain ⟨chunks', hrest⟩ := ih (fun x hx => hlogs x (List.mem_cons_of_mem l hx)) hfirst
        (fun a ha => (hstreams a).trans (hopen a ha))
      rw [List.append_assoc] at hrest
      exact ⟨chunks', hrest⟩

/-- **A destructor** empties the buffer of its appender. -/
theorem overlays_destroy {filename : Str} {inserted : AppenderId → Str}
    {chunks : List (AppenderId × Str)} (h : s.Overlays filename inserted chunks) (a : AppenderId) :
    (∃ chunk, (s.call spills (destruct a)).Overlays filename inserted (chunks ++ [(a, chunk)])) ∧
      ∀ b, (b = a ∨ (s.m_filestream b).buffer = []) →
        ((s.call spills (destruct a)).m_filestream b).buffer = [] := by
  have hnothing : inserted = fun b => inserted b ++ if a = b then [] else [] := by
    funext b
    rw [ite_self, List.append_nil]
  obtain ⟨⟨chunk, hpasses⟩, hbuffer⟩ := passes_close (h.kept a) (s.content a)
  refine ⟨⟨chunk, ?_⟩, ?_⟩
  · rw [hnothing]
    exact h.put hpasses
  · exact forall_put (fun b o => b = a ∨ (s.m_filestream b).buffer = [] → o.buffer = [])
      (fun _ => hbuffer) fun b hba hb => hb.resolve_left hba

theorem overlays_destroys {filename : Str} {inserted : AppenderId → Str} (bs : List AppenderId) :
    ∀ {s : FileSystem AppenderId} {chunks : List (AppenderId × Str)},
      s.Overlays filename inserted chunks →
      (∃ chunks', (s.run spills (bs.map destruct)).Overlays filename inserted chunks') ∧
        ∀ a, (a ∈ bs ∨ (s.m_filestream a).buffer = []) →
          ((s.run spills (bs.map destruct)).m_filestream a).buffer = [] := by
  induction bs with
  | nil =>
      intro s chunks h
      exact ⟨⟨chunks, h⟩, fun a ha => ha.resolve_left List.not_mem_nil⟩
  | cons b bs ih =>
      intro s chunks h
      obtain ⟨⟨chunk, hfirst⟩, hbuffers⟩ := overlays_destroy spills h b
      obtain ⟨hrest, hall⟩ := ih hfirst
      refine ⟨hrest, fun a ha => hall a ?_⟩
      rcases ha with ha | ha
      · rcases List.mem_cons.mp ha with hab | ha
        · exact .inr (hbuffers a (.inl hab))
        · exact .inl ha
      · exact .inr (hbuffers a (.inr ha))

theorem run_append (s : FileSystem AppenderId) (calls calls' : List (AppenderId × StreamCall)) :
    s.run spills (calls ++ calls') = (s.run spills calls).run spills calls' :=
  List.foldl_append

/-- Before the first `log` nothing has been inserted and nothing is held back. -/
theorem Constructed.overlays {filename : Str} {as : List AppenderId}
    (h : s.Constructed filename as) (has : as ≠ []) :
    s.Overlays filename (fun a => Overlay.share a []) [] := by
  have hposition : ∀ a, (s.m_filestream a).position = 0 := by
    intro a
    rcases h.fresh a with hstream | hstream
    · rw [hstream]
    · rw [hstream]
      rfl
  have hbuffer : ∀ a, (s.m_filestream a).buffer = [] := by
    intro a
    rcases h.fresh a with hstream | hstream
    · rw [hstream]
    · rw [hstream]
      rfl
  exact ⟨h.oneFile, hposition, h.empty has, fun a => (hbuffer a).symm, fun a _ => hbuffer a⟩

/-- Who never logs inserts nothing. -/
theorem share_logTexts_of_not_mem {as : List AppenderId}
    {logs : List (AppenderId × Libc × LogFormatter × LogEvent)} (hlogs : ∀ l ∈ logs, l.1 ∈ as)
    (ha : a ∉ as) : Overlay.share a (logs.map logText) = [] := by
  refine List.flatMap_eq_nil_iff.mpr fun w hw => ?_
  obtain ⟨l, hl, rfl⟩ := List.mem_map.mp hw
  refine if_neg fun hla => ha ?_
  rw [← hla]
  exact hlogs l hl

/-- **APPENDERS THAT SHARE A FILE.**  When they have been constructed on one file, have logged
without errors and have been destroyed in any order, the file holds all their texts in the
order of the calls exactly if all texts that are not empty come from one of them. -/
theorem shared_file_iff (spills : Str → Str → Bool) (filename : Str) (files : Str → Str)
    (as : List AppenderId) (logs : List (AppenderId × Libc × LogFormatter × LogEvent))
    (bs : List AppenderId) (has : as ≠ []) (hlogs : ∀ l ∈ logs, l.1 ∈ as) (hbs : ∀ a ∈ as, a ∈ bs) :
    ((unopened (fun _ => filename) files).run spills
        (as.map construct ++ logs.map logCall ++ bs.map destruct)).files filename
          = Overlay.texts (logs.map logText) ↔
      Overlay.OneWriter (logs.map logText) := by
  have hstart : (unopened (fun _ : AppenderId => filename) files).Constructed filename [] :=
    ⟨fun _ => rfl, fun _ => .inl rfl, fun a ha => (List.not_mem_nil ha).elim,
      fun hnil => absurd rfl hnil⟩
  have hconstructed := constructed_run spills as hstart
  rw [List.append_nil] at hconstructed
  have hoverlays := hconstructed.overlays (by simpa using has)
  obtain ⟨chunks, hlogged⟩ := overlays_logs spills logs hlogs hoverlays
    (fun a ha => congrArg FileStream.toOFStream
      (hconstructed.opened a (List.mem_reverse.mpr ha)))
  obtain ⟨⟨chunks', hdestroyed⟩, hbuffers⟩ := overlays_destroys spills bs hlogged
  rw [run_append, run_append, hdestroyed.content]
  refine Overlay.chunks_eq_iff '\x00' fun a => ?_
  have hshare := hdestroyed.share a
  rw [hbuffers a ?_, List.append_nil] at hshare
  · exact hshare
  · by_cases ha : a ∈ as
    · exact .inl (hbs a ha)
    · -- who was never constructed has inserted nothing
      right
      have hnone := share_logTexts_of_not_mem hlogs ha
      exact (List.append_eq_nil_iff.mp ((hlogged.share a).symm.trans hnone)).2

/-- Two appenders on one file: `x` and `z` from the first, `yy` from the second. -/
def twoWriters : List (Bool × Libc × LogFormatter × LogEvent) :=
  [(false, epochLibc, LogFormatter.new xxSrcs ['x'], sampleEvent),
    (true, epochLibc, LogFormatter.new xxSrcs ['y', 'y'], sampleEvent),
    (false, epochLibc, LogFormatter.new xxSrcs ['z'], sampleEvent)]

theorem shared_file_iff_twoAppenders :
    ((unopened (fun _ : Bool => ['f']) (fun _ => [])).run (fillsUp 8191)
        ([false, true].map construct ++ twoWriters.map logCall ++ [false, true].map destruct)).files
          ['f'] ≠ ['x', 'y', 'y', 'z'] :=
  fun heq => absurd
    ((shared_file_iff (fillsUp 8191) ['f'] (fun _ => []) [false, true] twoWriters [false, true]
      (by decide) (by decide) (by decide)).mp heq)
    (fun hone => absurd
      (hone (false, ['x']) (by decide) (true, ['y', 'y']) (by decide) (by decide) (by decide))
      (by decide))

/-- Whoever is destroyed first is written over. -/
example : ((unopened (fun _ : Bool => ['f']) (fun _ => [])).run (fillsUp 8191)
    ([false, true].map construct ++ twoWriters.map logCall ++ [true, false].map destruct)).files ['f']
      = ['x', 'z'] := by decide

end FileSystem

end SylarCot.Log
