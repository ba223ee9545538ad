import Terrier.Proof.Framing

/-!
A whole connection: reading and processing in turn, however the bytes arrive. The typed messages
are received as they were sent; the startup message is, too, if it fits into the read buffer and
no byte behind it has been read when it is processed.
-/

namespace Terrier.Network

open List Interpreter Connection

/-! ### States of a connection -/

variable {kind body rest stream : List UInt8} {i : Interpreter} {b : Buffer} {n : Nat}

theorem Awaits.room {unread : List UInt8} (h : Awaits kind body rest i.packet unread)
    (hshort : Short i b) : b.remaining.length < socketBufferCapacity := by
  obtain ⟨startup, packet⟩ := i
  have hheader : getPacketHeaderSize ⟨startup, packet⟩ < socketBufferCapacity := by
    cases startup <;> simp [getPacketHeaderSize, socketBufferCapacity]
  cases h with
  | fresh => exact lt_trans hshort hheader
  | headed hle => exact lt_of_lt_of_le hshort hle
  | extended =>
    rw [Short] at hshort
    rw [hshort.1]
    decide

/-- What the interpreter waits for has not been read. -/
theorem Awaits.stream_ne_nil (hkind : KindOf i.startup kind)
    (h : Awaits kind body rest i.packet (b.remaining ++ stream)) (hshort : Short i b) :
    stream ≠ [] := by
  rintro rfl
  rw [append_nil] at h
  obtain ⟨startup, packet⟩ := i
  generalize hunread : b.remaining = unread at h
  have hlen := congrArg List.length hunread
  cases h with
  | fresh =>
    have hheader := hkind.headerSize InputPacket.clear
    change b.remaining.length < getPacketHeaderSize ⟨startup, .clear⟩ at hshort
    rw [hheader, hlen, frame] at hshort
    simp only [length_append, BigEndian.length_encode] at hshort
    omega
  | headed hle =>
    change b.remaining.length < body.length at hshort
    rw [hlen, length_append] at hshort
    omega
  | @extended filled _ _ _ hbytes =>
    obtain ⟨hnil, hless⟩ := hshort
    change filled.length < body.length at hless
    rw [← hunread, hnil, append_nil] at hbytes
    rw [hbytes, length_append] at hless
    omega

def Expects : List TypedMessage → InputPacket → List UInt8 → Prop
  | [], packet, unread => packet = .clear ∧ unread = []
  | m :: more, packet, unread => Awaits [m.type.code] m.contents (messageBytes more) packet unread

theorem expects_fresh (messages : List TypedMessage) :
    Expects messages .clear (messageBytes messages) := by
  cases messages with
  | nil => exact ⟨rfl, rfl⟩
  | cons m more => exact .fresh

structure Connection.Sound (c : Connection) : Prop where
  size_le : c.buffer.size ≤ socketBufferCapacity
  short : c.phase = .reading → Short c.interpreter c.buffer

def Connection.unread (c : Connection) : List UInt8 := c.buffer.remaining ++ c.stream

structure Starting (s : StartupMessage) (messages : List TypedMessage) (c : Connection) : Prop
    extends c.Sound where
  open_ : c.phase ≠ .closed
  startup : c.interpreter.startup = true
  received : c.received = []
  awaits : Awaits [] s.body (messageBytes messages) c.interpreter.packet c.unread

structure Serving (s : StartupMessage) (done todo : List TypedMessage) (c : Connection) : Prop
    extends c.Sound where
  open_ : todo ≠ [] → c.phase ≠ .closed
  startup : c.interpreter.startup = false
  received : c.received = s.received :: done.map TypedMessage.received
  expects : Expects todo c.interpreter.packet c.unread

def Spoilt (s : StartupMessage) (c : Connection) : Prop :=
  c.phase = .closed ∧ c.received = [] ∨ ∃ r rest, c.received = r :: rest ∧ r ≠ s.received

theorem starting_new (s : StartupMessage) (messages : List TypedMessage) :
    Starting s messages (.new (s.bytes ++ messageBytes messages)) where
  size_le := Nat.zero_le _
  short _ := by
    change 0 < 4
    decide
  open_ := by
    change Phase.reading ≠ .closed
    decide
  startup := rfl
  received := rfl
  awaits := .fresh

variable {server : Server} {a : Arrival} {c : Connection}

theorem step_reading (ha : a.Delivers) (hphase : c.phase = .reading)
    (hsound : c.Sound) :
    (c.step server a).Sound ∧ (c.step server a).interpreter = c.interpreter ∧
      (c.step server a).received = c.received ∧ (c.step server a).unread = c.unread ∧
      ((c.step server a).phase = .reading ∧ (c.step server a).stream = c.stream ∨
        (c.step server a).phase = .processing ∧
          (c.step server a).stream.length < c.stream.length) := by
  have hfill := @filled_fillReadBuffer c.buffer hsound.size_le c.stream a ha
  have hstep : c.step server a =
      { c with
        phase := phaseAfter (fillReadBuffer c.buffer c.stream a.answers).1
        buffer := (fillReadBuffer c.buffer c.stream a.answers).2.1
        stream := (fillReadBuffer c.buffer c.stream a.answers).2.2 } := by
    rw [step, hphase]
  have hshort := hsound.short hphase
  rw [hstep]
  rcases hfill.moved with ⟨hneed, hrem, hstream⟩ | ⟨hproceed, hless⟩
  · refine ⟨⟨hfill.size_le, fun _ => ?_⟩, rfl, rfl, hfill.unread, .inl ⟨?_, hstream⟩⟩
    · rw [Short] at hshort ⊢
      rw [hrem]
      exact hshort
    · rw [hneed]
      rfl
  · refine ⟨⟨hfill.size_le, fun hreading => ?_⟩, rfl, rfl, hfill.unread, .inr ⟨?_, hless⟩⟩
    · rw [hproceed] at hreading
      cases hreading
    · rw [hproceed]
      rfl

theorem step_reading_moves (ha : a.Delivers) (hphase : c.phase = .reading)
    (hsize : c.buffer.size ≤ socketBufferCapacity)
    (hroom : c.buffer.remaining.length < socketBufferCapacity) (hstream : c.stream ≠ []) :
    (c.step server a).phase = .processing ∧ (c.step server a).stream.length < c.stream.length := by
  obtain ⟨hproceed, hless⟩ := fillReadBuffer_moves hsize hroom hstream ha
  rw [step, hphase]
  exact ⟨congrArg phaseAfter hproceed, hless⟩

theorem step_processing (hphase : c.phase = .processing) : c.step server a =
      let o := c.interpreter.process server a.memory c.buffer
      { c with
        phase := phaseAfter o.next
        buffer := o.buffer
        interpreter := o.interpreter
        received := c.received ++ o.received } := by
  rw [step, hphase]

theorem step_incomplete (hphase : c.phase = .processing)
    (h : c.interpreter.tryBuildPacket c.buffer = .ok (false, i, b)) :
    c.step server a = ⟨.reading, b, i, c.stream, c.received⟩ := by
  rw [step_processing hphase, process, h]
  simp [phaseAfter]

/-! ### Typed messages -/

/-- A complete packet becomes a command, which leaves what follows the packet. -/
theorem processCommand_built {m : TypedMessage} {rest stream : List UInt8} {i : Interpreter}
    {b : Buffer} (h : Built [m.type.code] m.contents rest stream false true i b) :
    i.startup = false ∧ ∃ b' : Buffer, b'.size = b.size ∧ b'.remaining ++ stream = rest ∧
      Interpreter.processCommand server i b =
        ⟨if server.ends m.type m.contents then .terminate else .proceed, ⟨false, .clear⟩, b',
          [m.received]⟩ := by
  cases h with
  | @inBuffer _ r hle hrem hrest =>
    refine ⟨rfl, b.skip m.contents.length, rfl, ?_, ?_⟩
    · rw [Buffer.remaining_skip_of_eq hrem rfl, hrest]
    · rw [processCommand]
      simp only [headD_cons, NetworkMessageType.ofCode?_code]
      rw [Buffer.readIntoView, hrem, take_left]
      rfl
  | inOwn hlt hrest =>
    refine ⟨rfl, b, rfl, hrest, ?_⟩
    rw [processCommand]
    simp only [headD_cons, NetworkMessageType.ofCode?_code]
    rfl

theorem step_command {m : TypedMessage} {rest : List UInt8} {i : Interpreter}
    {b : Buffer} (hphase : c.phase = .processing)
    (h : c.interpreter.tryBuildPacket c.buffer = .ok (true, i, b))
    (hbuilt : Built [m.type.code] m.contents rest c.stream false true i b) :
    ∃ b' : Buffer, b'.size = b.size ∧ b'.remaining ++ c.stream = rest ∧ c.step server a =
        ⟨if server.ends m.type m.contents then .closed else .processing, b', ⟨false, .clear⟩,
          c.stream, c.received ++ [m.received]⟩ := by
  obtain ⟨hstartup, b', hsize, hrest, hcommand⟩ := @processCommand_built server m _ _ _ _ hbuilt
  refine ⟨b', hsize, hrest, ?_⟩
  rw [step_processing hphase, process, h]
  simp only [hstartup, Bool.false_eq_true, if_false, hcommand]
  cases server.ends m.type m.contents <;> rfl

def rank (c : Connection) (left : Nat) : Nat :=
  2 * c.stream.length + 2 * left + if c.phase = .processing then 1 else 0

variable {todo : List TypedMessage}

theorem Expects.room {unread : List UInt8} (h : Expects todo i.packet unread) (hshort : Short i b)
    (hne : todo ≠ []) : b.remaining.length < socketBufferCapacity := by
  cases todo with
  | nil => exact absurd rfl hne
  | cons m more => exact Awaits.room h hshort

theorem Expects.stream_ne_nil (hstartup : i.startup = false)
    (h : Expects todo i.packet (b.remaining ++ stream)) (hshort : Short i b) (hne : todo ≠ []) :
    stream ≠ [] := by
  cases todo with
  | nil => exact absurd rfl hne
  | cons m more =>
    apply Awaits.stream_ne_nil _ h hshort
    rw [hstartup]
    exact .typed _

structure Progress (s : StartupMessage) (done todo : List TypedMessage) (before c : Connection)
    (done' todo' : List TypedMessage) : Prop where
  messages : done' ++ todo' = done ++ todo
  serving : Serving s done' todo' c
  finished : todo = [] → todo' = []
  rank_lt : todo ≠ [] → rank c todo'.length < rank before todo.length

variable {s : StartupMessage} {done : List TypedMessage}

theorem Serving.step_reading (h : Serving s done todo c) (ha : a.Delivers)
    (hphase : c.phase = .reading) : Progress s done todo c (c.step server a) done todo := by
  obtain ⟨hsound, hinterp, hrecv, hunread, hmoved⟩ :=
    @Network.step_reading server a c ha hphase h.toSound
  have hserve : Serving s done todo (c.step server a) := by
    refine ⟨hsound, fun _ => ?_, ?_, ?_, ?_⟩
    · rcases hmoved with ⟨hreading, _⟩ | ⟨hproc, _⟩
      · rw [hreading]
        decide
      · rw [hproc]
        decide
    · rw [hinterp]
      exact h.startup
    · rw [hrecv]
      exact h.received
    · rw [hinterp, hunread]
      exact h.expects
  refine ⟨rfl, hserve, id, fun hne => ?_⟩
  have hshort := h.short hphase
  obtain ⟨hproc, hless⟩ := @step_reading_moves server a c ha hphase h.size_le
    (h.expects.room hshort hne) (h.expects.stream_ne_nil h.startup hshort hne)
  rw [rank, rank, hproc, hphase, if_pos rfl, if_neg (by decide)]
  omega

theorem Serving.step_idle (h : Serving s done [] c)
    (hphase : c.phase = .processing) : Progress s done [] c (c.step server a) done [] := by
  obtain ⟨hpacket, hunread⟩ := h.expects
  have hnil : c.buffer.remaining = [] := (append_eq_nil_iff.1 hunread).1
  have hinterp : c.interpreter = ⟨false, .clear⟩ := by
    rw [← hpacket, ← h.startup]
  have hshort : c.buffer.remaining.length < getPacketHeaderSize ⟨false, .clear⟩ := by
    rw [hnil]
    decide
  have hbuild : c.interpreter.tryBuildPacket c.buffer = .ok (false, c.interpreter, c.buffer) := by
    rw [hinterp, tryBuildPacket, tryReadPacketHeader_short hshort]
    rfl
  rw [step_incomplete hphase hbuild]
  refine ⟨rfl, ⟨⟨h.size_le, fun _ => ?_⟩, ?_, h.startup, h.received, h.expects⟩, id, ?_⟩
  · rw [hinterp]
    exact hshort
  · exact fun hne => absurd rfl hne
  · exact fun hne => absurd rfl hne

theorem Serving.step_message {m : TypedMessage} {more : List TypedMessage}
    (h : Serving s done (m :: more) c) (hphase : c.phase = .processing)
    (hends : more ≠ [] → server.ends m.type m.contents = false) :
    ∃ done' todo', Progress s done (m :: more) c (c.step server a) done' todo' := by
  have hinterp : c.interpreter = ⟨false, c.interpreter.packet⟩ := by
    rw [← h.startup]
  obtain ⟨complete, i, b, hbuild, hbuilt, hsize⟩ :=
    built_tryBuildPacket (.typed m.type.code) m.length_le h.expects
  rw [← hinterp] at hbuild
  cases complete with
  | false =>
    refine ⟨done, m :: more, rfl, ?_, id, fun _ => ?_⟩
    · rw [step_incomplete hphase hbuild]
      cases hbuilt with
      | incomplete hawaits hshort =>
        exact ⟨⟨hsize.trans_le h.size_le, fun _ => hshort⟩, fun _ => by simp, rfl, h.received,
          hawaits⟩
    · rw [step_incomplete hphase hbuild, rank, rank, hphase]
      simp
  | true =>
    obtain ⟨b', hsize', hrest, hstep⟩ := @step_command server a _ _ _ _ _ hphase hbuild hbuilt
    refine ⟨done ++ [m], more, by simp, ?_, by simp, fun _ => ?_⟩
    · rw [hstep]
      refine ⟨⟨(hsize'.trans hsize).trans_le h.size_le, fun hreading => ?_⟩, fun hne => ?_, rfl,
        ?_, ?_⟩
      · dsimp only at hreading
        split_ifs at hreading
      · simp [hends hne]
      · simp [h.received]
      · rw [unread, hrest]
        exact expects_fresh more
    · rw [hstep, rank, rank, hphase, length_cons, if_pos rfl]
      dsimp only
      split_ifs <;> omega

theorem Serving.step (h : Serving s done todo c) (ha : a.Delivers)
    (hends : ∀ m ∈ (done ++ todo).dropLast, server.ends m.type m.contents = false) :
    ∃ done' todo', Progress s done todo c (c.step server a) done' todo' := by
  cases hphase : c.phase with
  | reading => exact ⟨done, todo, h.step_reading ha hphase⟩
  | processing =>
    cases todo with
    | nil => exact ⟨done, [], h.step_idle hphase⟩
    | cons m more =>
      apply h.step_message hphase
      intro hne
      apply hends
      rw [dropLast_append_of_ne_nil (cons_ne_nil m more), dropLast_cons_of_ne_nil hne]
      simp
  | closed =>
    have htodo : todo = [] := by
      by_contra hne
      exact h.open_ hne hphase
    have hstep : c.step server a = c := by
      rw [Connection.step, hphase]
    rw [hstep]
    exact ⟨done, todo, rfl, h, id, fun hne => absurd htodo hne⟩

/-! ### The startup message -/

/-- The bytes of later messages get in the way of the startup message, or it is too long. -/
def Obstructed (s : StartupMessage) (messages : List TypedMessage) (c : Connection) : Prop :=
  socketBufferCapacity < s.body.length ∨ c.stream.length < (messageBytes messages).length

theorem spoilt_of_misread (hphase : c.phase = .processing)
    (hrecv : c.received = []) (h : c.interpreter.tryBuildPacket c.buffer = .ok (true, i, b))
    (hstartup : i.startup = true) (hmisread : Misread s
      (Interpreter.processStartup server a.memory { i with packet := .clear } b)) :
    Spoilt s (c.step server a) := by
  rw [step_processing hphase, process, h]
  simp only [hstartup, if_true, hrecv, nil_append]
  rcases hmisread with ⟨hnext, hnothing⟩ | ⟨r, hr, hne⟩
  · apply Or.inl
    simp only [hstartup] at hnext hnothing
    rw [hnext, hnothing]
    exact ⟨rfl, rfl⟩
  · apply Or.inr
    simp only [hstartup] at hr
    exact ⟨r, [], hr, hne⟩

inductive StartStep (s : StartupMessage) (messages : List TypedMessage) (before c : Connection) :
    Prop
  | waits (h : Starting s messages c) (hstream : c.stream.length ≤ before.stream.length)
      (hrank : rank c 0 < rank before 0)
  | served (h : Serving s [] messages c) (hclear : ¬ Obstructed s messages before)
  | spoilt (h : Spoilt s c) (hobstructed : Obstructed s messages before)

variable {messages : List TypedMessage}

theorem Starting.step_reading (h : Starting s messages c) (ha : a.Delivers)
    (hphase : c.phase = .reading) : StartStep s messages c (c.step server a) := by
  obtain ⟨hsound, hinterp, hrecv, hunread, _⟩ :=
    @Network.step_reading server a c ha hphase h.toSound
  have hshort := h.short hphase
  have hkind : KindOf c.interpreter.startup [] := by
    rw [h.startup]
    exact .startup
  obtain ⟨hproc, hless⟩ := @step_reading_moves server a c ha hphase h.size_le
    (h.awaits.room hshort) (h.awaits.stream_ne_nil hkind hshort)
  apply StartStep.waits
  · refine ⟨hsound, ?_, ?_, ?_, ?_⟩
    · rw [hproc]
      decide
    · rw [hinterp]
      exact h.startup
    · rw [hrecv]
      exact h.received
    · rw [hinterp, hunread]
      exact h.awaits
  · exact hless.le
  · rw [rank, rank, hproc, hphase, if_pos rfl, if_neg (by decide)]
    omega

theorem Starting.step_processing (h : Starting s messages c)
    (hphase : c.phase = .processing) (hcreate : server.created s.parameters = true) :
    StartStep s messages c (c.step server a) := by
  have hinterp : c.interpreter = ⟨true, c.interpreter.packet⟩ := by
    rw [← h.startup]
  obtain ⟨complete, i, b, hbuild, hbuilt, hsize⟩ :=
    built_tryBuildPacket .startup s.length_le h.awaits
  rw [← hinterp] at hbuild
  cases hbuilt with
  | incomplete hawaits hshort =>
    rw [step_incomplete hphase hbuild]
    apply StartStep.waits
    · exact ⟨⟨hsize.trans_le h.size_le, fun _ => hshort⟩, by simp, rfl, h.received, hawaits⟩
    · exact le_rfl
    · rw [rank, rank, hphase]
      simp
  | @inBuffer _ r hle hrem hrest =>
    by_cases hr : r = []
    · -- the startup message ends the buffer
      subst hr
      rw [append_nil] at hrem
      rw [nil_append] at hrest
      obtain ⟨b', hsize', hnil, hprocess⟩ := @processStartup_exact server a.memory
        ⟨true, .clear⟩ b s hrem hcreate
      apply StartStep.served
      · rw [Network.step_processing hphase, process, hbuild]
        simp only [if_true, hprocess]
        refine ⟨⟨(hsize'.trans hsize).trans_le h.size_le, fun hreading => ?_⟩, fun _ => ?_, rfl,
          ?_, ?_⟩
        · cases hreading
        · change Phase.processing ≠ .closed
          decide
        · simp [h.received]
        · rw [unread, hnil, nil_append, hrest]
          exact expects_fresh messages
      · rintro (hlong | hless)
        · exact absurd hlong (not_lt.2 hle)
        · rw [hrest] at hless
          exact lt_irrefl _ hless
    · apply StartStep.spoilt
      · exact spoilt_of_misread hphase h.received hbuild rfl (misread_behind s hrem hr)
      · apply Or.inr
        have hpos := length_pos_of_ne_nil hr
        rw [← hrest, length_append]
        omega
  | inOwn hlt hrest =>
    apply StartStep.spoilt
    · exact spoilt_of_misread hphase h.received hbuild rfl (misread_own s hlt hrest)
    · exact .inl hlt

theorem Starting.step (h : Starting s messages c) (ha : a.Delivers)
    (hcreate : server.created s.parameters = true) : StartStep s messages c (c.step server a) := by
  cases hphase : c.phase with
  | reading => exact h.step_reading ha hphase
  | processing => exact h.step_processing hphase hcreate
  | closed => exact absurd hphase h.open_

theorem received_step (server : Server) (a : Arrival) (c : Connection) :
    ∃ more, (c.step server a).received = c.received ++ more := by
  cases hphase : c.phase with
  | processing =>
    rw [step_processing hphase]
    exact ⟨_, rfl⟩
  | reading | closed =>
    rw [step, hphase]
    exact ⟨[], (append_nil _).symm⟩

/-- Nothing that has been received is taken back. -/
theorem received_after {arrivals : Nat → Arrival} {n k : Nat} (h : n ≤ k) :
    ∃ more, (c.after server arrivals k).received =
      (c.after server arrivals n).received ++ more := by
  induction k, h using Nat.le_induction with
  | base => exact ⟨[], (append_nil _).symm⟩
  | succ k _ ih =>
    obtain ⟨more, hmore⟩ := ih
    obtain ⟨last, hlast⟩ := received_step server (arrivals k) (c.after server arrivals k)
    exact ⟨more ++ last, by rw [Connection.after, hlast, hmore, append_assoc]⟩

theorem Spoilt.step (h : Spoilt s c) : Spoilt s (c.step server a) := by
  rcases h with ⟨hphase, hrecv⟩ | ⟨r, rest, hrecv, hne⟩
  · apply Or.inl
    rw [Connection.step, hphase]
    exact ⟨hphase, hrecv⟩
  · apply Or.inr
    obtain ⟨more, hmore⟩ := received_step server a c
    exact ⟨r, rest ++ more, by rw [hmore, hrecv, cons_append], hne⟩

/-! ### Whole connections -/

/-- What the client sends, message by message: the bytes, and what is to be received. -/
def sent (s : StartupMessage) (messages : List TypedMessage) : List (List UInt8 × Received) :=
  (s.bytes, s.received) :: messages.map fun m => (m.bytes, m.received)

/-- The bytes of the current packet that have been taken out of the read buffer. -/
def Interpreter.taken (i : Interpreter) : List UInt8 :=
  if i.packet.headerParsed then
    (if i.startup then [] else [i.packet.msgType]) ++
      (BigEndian.encode 4 (i.packet.len + 4) ++ i.packet.own.getD [])
  else []

/-- Some of the messages have been received as they were sent, and all bytes of the others are still
there or in the current packet. -/
def Framed (s : StartupMessage) (messages : List TypedMessage) (c : Connection) : Prop :=
  ∃ done todo, sent s messages = done ++ todo ∧ c.received = done.map Prod.snd ∧
    c.interpreter.taken ++ c.unread = (todo.map Prod.fst).flatten

/-- Until the startup message has been processed no byte behind it has been read, and it fits into
the read buffer. -/
def Unobstructed (server : Server) (arrivals : Nat → Arrival) (s : StartupMessage)
    (messages : List TypedMessage) (c : Connection) : Prop :=
  s.body.length ≤ socketBufferCapacity ∧
    ∀ n, (c.after server arrivals n).interpreter.startup = true →
      (messageBytes messages).length ≤ (c.after server arrivals n).stream.length

theorem Awaits.taken {kind body rest unread : List UInt8} {i : Interpreter}
    (hkind : KindOf i.startup kind) (h : Awaits kind body rest i.packet unread) :
    i.taken ++ unread = frame kind body ++ rest := by
  obtain ⟨startup, packet⟩ := i
  have htype : (if startup then [] else [kind.headD 0]) = kind := by
    cases hkind <;> rfl
  cases h with
  | fresh => rfl
  | headed =>
    simp only [Interpreter.taken, if_true]
    rw [htype]
    simp [frame]
  | extended _ _ hunread =>
    simp only [Interpreter.taken, if_true]
    rw [htype]
    simp [frame, hunread]

theorem messageBytes_eq (messages : List TypedMessage) :
    ((messages.map fun m => (m.bytes, m.received)).map Prod.fst).flatten =
      messageBytes messages := by
  rw [List.map_map, messageBytes, flatMap_def]
  rfl

theorem Starting.framed (h : Starting s messages c) : Framed s messages c := by
  have hkind : KindOf c.interpreter.startup [] := by
    rw [h.startup]
    exact .startup
  refine ⟨[], sent s messages, rfl, h.received, ?_⟩
  rw [h.awaits.taken hkind, sent, map_cons, flatten_cons, messageBytes_eq]
  rfl

theorem Serving.framed (h : Serving s done todo c) :
    Framed s (done ++ todo) c := by
  refine ⟨sent s done, todo.map fun m => (m.bytes, m.received), by simp [sent], ?_, ?_⟩
  · simp [h.received, sent]
  · rw [messageBytes_eq]
    have hexpects := h.expects
    cases todo with
    | nil =>
      obtain ⟨hpacket, hunread⟩ := hexpects
      rw [taken, hpacket, hunread]
      rfl
    | cons m more =>
      have hkind : KindOf c.interpreter.startup [m.type.code] := by
        rw [h.startup]
        exact .typed _
      rw [Awaits.taken hkind hexpects, messageBytes, messageBytes, flatMap_cons]
      rfl

section Runs

variable {server : Server} {arrivals : Nat → Arrival} {s : StartupMessage}
  {messages : List TypedMessage} (harrivals : ∀ n, (arrivals n).Delivers)

include harrivals

variable {n : Nat}

theorem serving_finishes
    (hends : ∀ m ∈ (done ++ todo).dropLast, server.ends m.type m.contents = false)
    (h : Serving s done todo (c.after server arrivals n)) :
    ∃ k, Serving s (done ++ todo) [] (c.after server arrivals k) := by
  -- the rank decreases as long as a message is left
  induction hrank : rank (c.after server arrivals n) todo.length using Nat.strong_induction_on
    generalizing n done todo with
  | h r ih =>
    by_cases htodo : todo = []
    · subst htodo
      exact ⟨n, by rwa [append_nil]⟩
    · obtain ⟨done', todo', hprog⟩ := h.step (harrivals n) hends
      have hless := hprog.rank_lt htodo
      rw [hrank] at hless
      rw [← hprog.messages] at hends ⊢
      exact ih _ hless hends (n := n + 1) hprog.serving rfl

theorem serving_stays (hends : ∀ m ∈ done.dropLast, server.ends m.type m.contents = false)
    (h : Serving s done [] (c.after server arrivals n)) {k : Nat} (hk : n ≤ k) :
    Serving s done [] (c.after server arrivals k) := by
  induction k, hk using Nat.le_induction with
  | base => exact h
  | succ k _ ih =>
    obtain ⟨done', todo', hprog⟩ := ih.step (harrivals k) (by rwa [append_nil])
    have hmessages := hprog.messages
    rw [hprog.finished rfl, append_nil, append_nil] at hmessages
    have hserve := hprog.serving
    rwa [hmessages, hprog.finished rfl] at hserve

theorem starting_serving_spoilt (hcreate : server.created s.parameters = true)
    (hends : ∀ m ∈ messages.dropLast, server.ends m.type m.contents = false)
    (h : Starting s messages c) (n : Nat) :
    Starting s messages (c.after server arrivals n) ∨
      (∃ done todo, done ++ todo = messages ∧ Serving s done todo (c.after server arrivals n)) ∨
        Spoilt s (c.after server arrivals n) := by
  induction n with
  | zero => exact .inl h
  | succ n ih =>
    rcases ih with hstart | ⟨done, todo, hmessages, hserve⟩ | hspoilt
    · cases hstart.step (harrivals n) hcreate with
      | waits h => exact .inl h
      | served h => exact .inr (.inl ⟨[], messages, rfl, h⟩)
      | spoilt h => exact .inr (.inr h)
    · subst hmessages
      obtain ⟨done', todo', hprog⟩ := hserve.step (harrivals n) hends
      exact .inr (.inl ⟨done', todo', hprog.messages, hprog.serving⟩)
    · exact .inr (.inr hspoilt.step)

theorem starting_serves (hcreate : server.created s.parameters = true)
    (hclear : Unobstructed server arrivals s messages c)
    (h : Starting s messages (c.after server arrivals n)) :
    ∃ k, Serving s [] messages (c.after server arrivals k) := by
  induction hrank : rank (c.after server arrivals n) 0 using Nat.strong_induction_on
    generalizing n with
  | h r ih =>
    cases h.step (harrivals n) hcreate with
    | waits hwaits _ hless => exact ih _ (hrank ▸ hless) (n := n + 1) hwaits rfl
    | served hserved => exact ⟨n + 1, hserved⟩
    | spoilt _ hobst =>
      rcases hobst with hlong | hless
      · exact absurd hlong (not_lt.2 hclear.1)
      · exact absurd hless (not_lt.2 (hclear.2 n h.startup))

theorem obstructed_stays (hcreate : server.created s.parameters = true) {n : Nat}
    (h : Starting s messages (c.after server arrivals n) ∧
        Obstructed s messages (c.after server arrivals n) ∨
      Spoilt s (c.after server arrivals n)) {k : Nat} (hk : n ≤ k) :
    Starting s messages (c.after server arrivals k) ∧
        Obstructed s messages (c.after server arrivals k) ∨
      Spoilt s (c.after server arrivals k) := by
  induction k, hk using Nat.le_induction with
  | base => exact h
  | succ k _ ih =>
    rcases ih with ⟨hstart, hobst⟩ | hspoilt
    · cases hstart.step (harrivals k) hcreate with
      | waits h hstream =>
        apply Or.inl
        refine ⟨h, ?_⟩
        rcases hobst with hlong | hless
        · exact .inl hlong
        · exact .inr (lt_of_le_of_lt hstream hless)
      | served _ hclear => exact absurd hobst hclear
      | spoilt h => exact .inr h
    · exact .inr hspoilt.step

end Runs

theorem Spoilt.received_ne (h : Spoilt s c) :
    c.received ≠ (sent s messages).map Prod.snd := by
  rcases h with ⟨_, hrecv⟩ | ⟨r, rest, hrecv, hne⟩
  · simp [hrecv, sent]
  · rw [hrecv, sent, map_cons]
    exact fun heq => hne (List.cons.inj heq).1

theorem Starting.received_ne (h : Starting s messages c) :
    c.received ≠ (sent s messages).map Prod.snd := by
  simp [h.received, sent]

def Connection.lengthField (c : Connection) : Nat :=
  BigEndian.decode ((c.buffer.remaining.drop (c.interpreter.getPacketHeaderSize - 4)).take 4)

theorem step_badLength (hphase : c.phase = .processing)
    (hheader : c.interpreter.packet.headerParsed = false)
    (hmore : c.interpreter.getPacketHeaderSize ≤ c.buffer.remaining.length)
    (hfield : c.lengthField < 4 ∨ packetLenLimit + 4 < c.lengthField) :
    (c.step server a).phase = .closed ∧ (c.step server a).received = c.received := by
  have hlimit : packetLenLimit + 4 < 2 ^ 32 := by decide
  have hlt : c.lengthField < 2 ^ 32 := by
    apply lt_of_lt_of_le (BigEndian.decode_lt _)
    apply Nat.pow_le_pow_right (by decide) (length_take_le _ _)
  have hlong : packetLenLimit < packetLength c.lengthField := by
    rw [packetLength]
    omega
  have hhas : c.buffer.hasMore c.interpreter.getPacketHeaderSize = true := by
    rw [Buffer.hasMore_iff _ _ _]
    · exact hmore
    · rw [getPacketHeaderSize]
      split_ifs <;> decide
  have hread : c.interpreter.tryReadPacketHeader c.buffer = .error "Packet too large" := by
    have hfield : ((c.interpreter.setPacketMessageType c.buffer).2.readValue 4 []).1 =
        c.lengthField := by
      rw [lengthField, setPacketMessageType, getPacketHeaderSize]
      split_ifs
      · simp [Buffer.readValue]
      · simp [Buffer.readValue, Buffer.remaining_skip]
    rw [tryReadPacketHeader, hheader, hhas]
    simp only [Bool.false_eq_true, Bool.not_true, if_false]
    rw [hfield, if_pos hlong]
  have hbuild : c.interpreter.tryBuildPacket c.buffer = .error "Packet too large" := by
    rw [tryBuildPacket, hread]
    rfl
  rw [step_processing hphase, process, hbuild]
  exact ⟨rfl, append_nil _⟩

/-- The messages of a client are received as they were sent, each from its own bytes, if and only if
nothing obstructs the startup message; and a bad length field ends a connection. -/
theorem messages_framed_iff (server : Server) (arrivals : Nat → Arrival) (s : StartupMessage)
    (messages : List TypedMessage) (harrivals : ∀ n, (arrivals n).Delivers)
    (hcreated : server.created s.parameters = true)
    (hends : ∀ m ∈ messages.dropLast, server.ends m.type m.contents = false) :
    (((∀ n, Framed s messages
          ((Connection.new (s.bytes ++ messageBytes messages)).after server arrivals n)) ∧
        ∃ n, ∀ k, n ≤ k →
          ((Connection.new (s.bytes ++ messageBytes messages)).after server arrivals k).received =
            (sent s messages).map Prod.snd) ↔
      Unobstructed server arrivals s messages (.new (s.bytes ++ messageBytes messages))) ∧
    ∀ (a : Arrival) (c : Connection), c.phase = .processing →
      c.interpreter.packet.headerParsed = false →
      c.interpreter.getPacketHeaderSize ≤ c.buffer.remaining.length →
      (c.lengthField < 4 ∨ packetLenLimit + 4 < c.lengthField) →
      (c.step server a).phase = .closed ∧ (c.step server a).received = c.received := by
  refine ⟨?_, fun a c => step_badLength⟩
  have hnew := starting_new s messages
  generalize Connection.new (s.bytes ++ messageBytes messages) = c at hnew ⊢
  have hcases := starting_serving_spoilt harrivals hcreated hends hnew
  constructor
  · rintro ⟨_, n, hreceived⟩
    by_contra hnot
    -- from some step on the connection is obstructed or spoilt
    obtain ⟨n', hn'⟩ : ∃ n', Starting s messages (c.after server arrivals n') ∧
        Obstructed s messages (c.after server arrivals n') ∨
          Spoilt s (c.after server arrivals n') := by
      by_cases hle : s.body.length ≤ socketBufferCapacity
      · obtain ⟨n', hstartup, hless⟩ : ∃ n', (c.after server arrivals n').interpreter.startup =
            true ∧ (c.after server arrivals n').stream.length < (messageBytes messages).length := by
          by_contra hnone
          simp only [not_exists, not_and, not_lt] at hnone
          exact hnot ⟨hle, hnone⟩
        refine ⟨n', ?_⟩
        rcases hcases n' with hstarting | ⟨_, _, _, hserving⟩ | hspoilt
        · exact .inl ⟨hstarting, .inr hless⟩
        · rw [hserving.startup] at hstartup
          cases hstartup
        · exact .inr hspoilt
      · exact ⟨0, .inl ⟨hnew, .inl (not_le.1 hle)⟩⟩
    have hend := obstructed_stays harrivals hcreated hn' (le_max_right n n')
    have hall := hreceived _ (le_max_left n n')
    rcases hend with ⟨hstarting, _⟩ | hspoilt
    · exact hstarting.received_ne hall
    · exact hspoilt.received_ne hall
  · intro hclear
    obtain ⟨n, hserving⟩ := starting_serves harrivals hcreated hclear (n := 0) hnew
    obtain ⟨n', hfinished⟩ : ∃ n', Serving s ([] ++ messages) [] (c.after server arrivals n') :=
      serving_finishes harrivals hends hserving
    have hstays {k : Nat} (hk : n' ≤ k) := serving_stays harrivals hends hfinished hk
    have hreceived {k : Nat} (hk : n' ≤ k) :
        (c.after server arrivals k).received = (sent s messages).map Prod.snd := by
      rw [(hstays hk).received, sent]
      simp
    refine ⟨fun k => ?_, n', fun k hk => ?_⟩
    · rcases hcases k with hstarting | ⟨done, todo, hmessages, hserves⟩ | hspoilt
      · exact hstarting.framed
      · exact hmessages ▸ hserves.framed
      · -- a spoilt connection stays so, but in the end everything is received
        have hend := @obstructed_stays c server arrivals s messages harrivals hcreated k
          (.inr hspoilt) _ (le_max_right n' k)
        have hall := hreceived (le_max_left n' k)
        rcases hend with ⟨hstarting, _⟩ | hspoilt
        · exact absurd hall hstarting.received_ne
        · exact absurd hall hspoilt.received_ne
    · exact hreceived hk

def plainStartup : StartupMessage where
  version := 196608
  parameters := []
  version_eq := by decide
  nul_free := by simp
  length_le := by decide

def syncMessage : TypedMessage := ⟨.sync, [], by decide⟩

def willing : Server := ⟨fun _ => true, fun _ _ => false⟩

/-- All bytes arrive at once: the `Sync` behind the startup message is taken for parameters. -/
theorem sync_read_as_parameters :
    let c := (Connection.new (plainStartup.bytes ++ messageBytes [syncMessage])).after willing
      (fun _ => ⟨[.received 100], []⟩) 2
    c.received = [.startup 196608 [([], [83]), ([], [])]] ∧ c.unread = [] ∧
      (sent plainStartup [syncMessage]).map Prod.snd = [.startup 196608 [], .command .sync []] := by
  decide +kernel

def single : Nat → Arrival := fun _ => ⟨[.received 0], []⟩

theorem single_delivers : (single n).Delivers := by
  refine ⟨⟨0, ?_⟩, ?_, ?_⟩ <;> simp [single]

theorem startup_received_singly (hn : 18 ≤ n) :
    ((Connection.new (plainStartup.bytes ++ messageBytes [syncMessage])).after willing single
      n).interpreter.startup = false := by
  have hnew := starting_new plainStartup [syncMessage]
  obtain ⟨more, hmore⟩ := @received_after willing
    (.new (plainStartup.bytes ++ messageBytes [syncMessage])) single _ _ hn
  have hfirst : ((new (plainStartup.bytes ++ messageBytes [syncMessage])).after willing
      single 18).received = [plainStartup.received] := by
    decide +kernel
  rw [hfirst] at hmore
  have hcases := @starting_serving_spoilt _ willing single _ _ (fun _ => single_delivers) rfl
    (by simp) hnew n
  rcases hcases with hstart | ⟨_, _, _, hserve⟩ | hspoilt
  · rw [hstart.received] at hmore
    simp at hmore
  · exact hserve.startup
  · rcases hspoilt with ⟨_, hnil⟩ | ⟨r, rest, hr, hne⟩
    · rw [hnil] at hmore
      simp at hmore
    · rw [hr] at hmore
      exact absurd (List.cons.inj hmore).1 hne

/-- One byte at a time the startup message is not obstructed. -/
theorem single_unobstructed : Unobstructed willing single plainStartup [syncMessage]
      (.new (plainStartup.bytes ++ messageBytes [syncMessage])) := by
  refine ⟨by decide, fun n hstartup => ?_⟩
  by_cases hn : n < 18
  · have hall : ∀ n < 18, (messageBytes [syncMessage]).length ≤
        ((new (plainStartup.bytes ++ messageBytes [syncMessage])).after willing single
          n).stream.length := by
      decide +kernel
    exact hall n hn
  · rw [startup_received_singly (not_lt.1 hn)] at hstartup
    cases hstartup

theorem sync_received_singly : (∀ n, (single n).Delivers) ∧ ∃ n, ∀ k, n ≤ k →
      ((Connection.new (plainStartup.bytes ++ messageBytes [syncMessage])).after willing single
        k).received = [.startup 196608 [], .command .sync []] := by
  have hframed := messages_framed_iff willing single plainStartup [syncMessage]
    (fun _ => single_delivers) rfl (by simp)
  exact ⟨fun _ => single_delivers, (hframed.1.2 single_unobstructed).2⟩

end Terrier.Network
