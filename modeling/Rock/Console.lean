/-
Rock/Console.lean

The console: `print` (kernel/core/debug.c) on any number of cores, `serial_write` and
`serial_init` (kernel/arch/x86/debug.c), and the UART they drive.

A core prints a message byte by byte under the lock of `print_stream`.  For each byte it waits
until the UART has nothing left to send, and then writes the byte, or two for a newline.  The
UART sends on its own while the cores go on.

Nothing is lost or mixed: at every moment what was sent and what the UART still holds are the
messages in the order of the lock, each as a whole, and a part of the one that is being printed
(`console_whole`).  This is so from a UART that `serial_init` has set up (`setUp_eq`), and not of
what `main` prints before that, and as long as no core sets up the UART meanwhile.
`serial_init` does not take the lock, and every processor that is started calls it: it drops
what the UART holds, and a byte that is written between its first and its fourth `outb` goes to
the divisor of the baud rate (`init_garbles`).

`panic` takes the lock for all it prints, so it prints as one message what it prints there.
-/
import Rock.Exec

namespace Rock

/-! ### The UART -/

/-- The settings of the line: the control register and the divisor of the baud rate. -/
structure LineSettings where
  lcr : BitVec 8
  dll : BitVec 8
  dlm : BitVec 8
  deriving DecidableEq, Repr

/-- COM1: its settings, the bytes it holds, and those it has sent, with the settings of then. -/
structure Uart where
  line : LineSettings
  fifo : List (BitVec 8)
  wire : List (LineSettings × BitVec 8)
  deriving DecidableEq, Repr

namespace Uart

/-- `outb(COM1 + reg, byte)`.  The divisor is behind the registers 0 and 1 while bit 7 of the
control register is set; a byte for which there is no room is lost. -/
def outb (u : Uart) (reg : ℕ) (byte : BitVec 8) : Uart :=
  match reg with
  | 0 =>
      if u.line.lcr.getLsbD 7 then { u with line.dll := byte }
      else if u.fifo.length < 16 then { u with fifo := u.fifo ++ [byte] }
      else u
  | 1 => if u.line.lcr.getLsbD 7 then { u with line.dlm := byte } else u
  | 2 => if byte.getLsbD 2 then { u with fifo := [] } else u
  | 3 => { u with line.lcr := byte }
  | _ => u

/-- `inb(COM1 + 5) & (1 << 5)`: nothing is left to send. -/
def ready (u : Uart) : Bool := u.fifo.isEmpty

/-- The UART sends a byte. -/
def send (u : Uart) : Option Uart :=
  match u.fifo with
  | [] => none
  | byte :: rest => some { u with fifo := rest, wire := u.wire ++ [(u.line, byte)] }

/-- All bytes it was given, and has sent or still holds. -/
def bytes (u : Uart) : List (BitVec 8) := u.wire.map Prod.snd ++ u.fifo

end Uart

/-- The `outb`s of `serial_init`. -/
def serialInit : List (ℕ × BitVec 8) :=
  [(3, 0x80), (0, 0x0c), (1, 0x00), (3, 0x03), (2, 0xc7), (4, 0x00)]

/-- 9600 baud, 8 bits, no parity, one stop bit. -/
def serialLine : LineSettings := ⟨0x03, 0x0c, 0x00⟩

/-- `serial_init` as a whole. -/
def Uart.setUp (u : Uart) : Uart := serialInit.foldl (fun u o => u.outb o.1 o.2) u

/-- Whatever the firmware left, the line is set and nothing is held. -/
theorem Uart.setUp_eq (u : Uart) : u.setUp = ⟨serialLine, [], u.wire⟩ := by
  simp [Uart.setUp, serialInit, Uart.outb, serialLine]

/-! ### The cores -/

/-- What a core does: nothing, `serial_init` with some `outb`s to come, or a `print`, of which
`done` is written and `todo` is not.  It waits for the lock, or is at the start of `serial_write`,
before the carriage return of a newline, or before the byte itself. -/
inductive PrintState where
  | idle
  | init (todo : List (ℕ × BitVec 8))
  | spin (msg : List (BitVec 8))
  | poll (done todo : List (BitVec 8))
  | carriage (done todo : List (BitVec 8))
  | put (done : List (BitVec 8)) (byte : BitVec 8) (todo : List (BitVec 8))
  deriving DecidableEq, Repr

/-- The machine; `printed` are the messages that were printed, the last one at the end. -/
structure Console (C : Type) where
  lock : Option C
  uart : Uart
  core : C → PrintState
  printed : List (List (BitVec 8))

/-- What happens next: a core begins a `print` or a `serial_init`, or goes on, or the UART
sends. -/
inductive ConsoleAct (C : Type) where
  | print (c : C) (msg : List (BitVec 8))
  | init (c : C)
  | step (c : C)
  | send

namespace Console

variable {C : Type} [DecidableEq C]

/-- The core `c` goes on with `p`. -/
def goto (s : Console C) (c : C) (p : PrintState) : Console C :=
  { s with core := Function.update s.core c p }

/-- The next step of a core, if it does not wait. -/
def stepCore (s : Console C) (c : C) : Option (Console C) :=
  match s.core c with
  | .idle => none
  | .init [] => some (s.goto c .idle)
  | .init ((reg, byte) :: todo) => some { s.goto c (.init todo) with uart := s.uart.outb reg byte }
  | .spin msg =>
      if s.lock = none then some { s.goto c (.poll [] msg) with lock := some c } else none
  | .poll done [] =>
      some { s.goto c .idle with lock := none, printed := s.printed ++ [done] }
  | .poll done (byte :: todo) =>
      if s.uart.ready then
        some (s.goto c (if byte = 0x0a then .carriage done todo else .put done byte todo))
      else none
  | .carriage done todo => some { s.goto c (.put done 0x0a todo) with uart := s.uart.outb 0 0x0d }
  | .put done byte todo =>
      some { s.goto c (.poll (done ++ [byte]) todo) with uart := s.uart.outb 0 byte }

def next (s : Console C) : ConsoleAct C → Option (Console C)
  | .print c msg => if s.core c = .idle then some (s.goto c (.spin msg)) else none
  | .init c => if s.core c = .idle then some (s.goto c (.init serialInit)) else none
  | .step c => s.stepCore c
  | .send => s.uart.send.map fun u => { s with uart := u }

/-- Who sets up the UART does so while nobody prints, nothing is left to send and nobody else
sets it up. -/
def Apart (s : Console C) : Prop :=
  ∀ c todo, s.core c = .init todo → s.lock = none ∧ s.uart.fifo = [] ∧
    ∀ c' todo', s.core c' = .init todo' → c' = c

/-- A step of a run in which `serial_init` and `print` do not meet. -/
def Step (s s' : Console C) : Prop := s.Apart ∧ ∃ a, s.next a = some s'

/-- All cores are idle, and the UART is as `serial_init` leaves it. -/
structure Initial (s : Console C) : Prop where
  lock : s.lock = none
  core : ∀ c, s.core c = .idle
  printed : s.printed = []
  uart : ∃ u : Uart, u.wire = [] ∧ s.uart = u.setUp

end Console

/-! ### What a message is on the line -/

/-- A message as it is sent: with a carriage return before each newline. -/
def encode (msg : List (BitVec 8)) : List (BitVec 8) :=
  msg.flatMap fun byte => if byte = 0x0a then [0x0d, 0x0a] else [byte]

theorem encode_append (m m' : List (BitVec 8)) : encode (m ++ m') = encode m ++ encode m' :=
  List.flatMap_append

namespace PrintState

/-- The core has the lock. -/
def holds : PrintState → Bool
  | poll .. | carriage .. | put .. => true
  | _ => false

/-- The message that is printed. -/
def msg : PrintState → List (BitVec 8)
  | poll done todo => done ++ todo
  | carriage done todo => done ++ 0x0a :: todo
  | put done byte todo => done ++ byte :: todo
  | _ => []

/-- What the UART was given of it. -/
def sent : PrintState → List (BitVec 8)
  | poll done _ | carriage done _ => encode done
  | put done byte _ => encode done ++ if byte = 0x0a then [0x0d] else []
  | _ => []

/-- The bytes the UART may hold there. -/
def room : PrintState → ℕ
  | carriage .. => 0
  | put _ byte _ => if byte = 0x0a then 1 else 0
  | _ => 2

theorem room_le (p : PrintState) : p.room ≤ 2 := by
  cases p with
  | put done byte todo =>
      rw [room]
      split <;> decide
  | carriage => exact Nat.zero_le 2
  | _ => exact le_rfl

theorem sent_isPrefix (p : PrintState) : List.IsPrefix p.sent (encode p.msg) := by
  cases p with
  | poll done todo =>
      rw [sent, msg, encode_append]
      exact List.prefix_append ..
  | carriage done todo =>
      rw [sent, msg, encode_append]
      exact List.prefix_append ..
  | put done byte todo =>
      rw [sent, msg, encode_append]
      refine (List.prefix_append_right_inj _).mpr ?_
      by_cases hbyte : byte = 0x0a
      · rw [if_pos hbyte, hbyte]
        exact List.prefix_append [0x0d] _
      · rw [if_neg hbyte]
        exact List.nil_prefix
  | _ => exact List.nil_prefix

/-- One more byte is written. -/
theorem sent_put (done : List (BitVec 8)) (byte : BitVec 8) (todo : List (BitVec 8)) :
    (poll (done ++ [byte]) todo).sent = (put done byte todo).sent ++ [byte] := by
  have hencode : encode [byte] = (if byte = 0x0a then [0x0d] else []) ++ [byte] := by
    rw [encode, List.flatMap_singleton]
    split
    next hbyte => rw [hbyte, List.singleton_append]
    next => rfl
  rw [sent, sent, encode_append, List.append_assoc, hencode]

end PrintState

/-! ### Setting up the UART -/

/-- Where `serial_init` is, with what it has done to the settings. -/
inductive InitAt : List (ℕ × BitVec 8) → LineSettings → Prop
  | start (line : LineSettings) : InitAt serialInit line
  | latch (dll dlm : BitVec 8) : InitAt (serialInit.drop 1) ⟨0x80, dll, dlm⟩
  | low (dlm : BitVec 8) : InitAt (serialInit.drop 2) ⟨0x80, 0x0c, dlm⟩
  | high : InitAt (serialInit.drop 3) ⟨0x80, 0x0c, 0x00⟩
  | format : InitAt (serialInit.drop 4) serialLine
  | fifo : InitAt (serialInit.drop 5) serialLine
  | modem : InitAt (serialInit.drop 6) serialLine

theorem InitAt.finish {line : LineSettings} (h : InitAt [] line) : line = serialLine := by
  cases h
  rfl

/-- One `outb` of `serial_init` to an empty UART. -/
theorem InitAt.step {reg : ℕ} {byte : BitVec 8} {todo : List (ℕ × BitVec 8)} {u : Uart}
    (h : InitAt ((reg, byte) :: todo) u.line) (hfifo : u.fifo = []) :
    InitAt todo (u.outb reg byte).line ∧ (u.outb reg byte).fifo = [] ∧
      (u.outb reg byte).wire = u.wire := by
  obtain ⟨line, fifo, wire⟩ := u
  obtain rfl : fifo = [] := hfifo
  cases h with
  | start => exact ⟨.latch _ _, rfl, rfl⟩
  | latch dll dlm =>
      have hout : (Uart.mk ⟨0x80, dll, dlm⟩ [] wire).outb 0 0x0c =
          ⟨⟨0x80, 0x0c, dlm⟩, [], wire⟩ :=
        if_pos (show (0x80 : BitVec 8).getLsbD 7 = true by decide)
      rw [hout]
      exact ⟨.low dlm, rfl, rfl⟩
  | low dlm =>
      have hout : (Uart.mk ⟨0x80, 0x0c, dlm⟩ [] wire).outb 1 0x00 =
          ⟨⟨0x80, 0x0c, 0x00⟩, [], wire⟩ :=
        if_pos (show (0x80 : BitVec 8).getLsbD 7 = true by decide)
      rw [hout]
      exact ⟨.high, rfl, rfl⟩
  | high => exact ⟨.format, rfl, rfl⟩
  | format => exact ⟨.fifo, rfl, rfl⟩
  | fifo => exact ⟨.modem, rfl, rfl⟩

/-! ### The invariant -/

namespace Console

variable {C : Type}

/-- The core that prints has the lock; the UART was given the printed messages and a part of the
one that is being printed, in this order; it never holds more than two bytes; it is set up
unless a core is about to; and it has sent everything with these settings. -/
structure Inv (s : Console C) : Prop where
  owner : ∀ c, (s.core c).holds = true ↔ s.lock = some c
  whole : s.lock = none → s.uart.bytes = s.printed.flatMap encode
  part : ∀ c, s.lock = some c →
    s.uart.bytes = s.printed.flatMap encode ++ (s.core c).sent ∧
      s.uart.fifo.length ≤ (s.core c).room
  room : s.uart.fifo.length ≤ 2
  line : (∀ c todo, s.core c ≠ .init todo) → s.uart.line = serialLine
  init : ∀ c todo, s.core c = .init todo → InitAt todo s.uart.line
  wire : ∀ x ∈ s.uart.wire, x.1 = serialLine

theorem Initial.uart_eq {s : Console C} (h : s.Initial) : s.uart = ⟨serialLine, [], []⟩ := by
  obtain ⟨u, hwire, hu⟩ := h.uart
  rw [hu, u.setUp_eq, hwire]

theorem Initial.inv {s : Console C} (h : s.Initial) : s.Inv where
  owner c := by simp [h.core c, h.lock, PrintState.holds]
  whole _ := by simp [h.uart_eq, h.printed, Uart.bytes]
  part c hc := by simp [h.lock] at hc
  room := by simp [h.uart_eq]
  line _ := by rw [h.uart_eq]
  init c todo hc := by simp [h.core c] at hc
  wire x hx := by simp [h.uart_eq] at hx

section Steps

variable {s s' : Console C} {c : C} {p : PrintState}

/-- Nobody sets up the UART while the lock is taken. -/
theorem Apart.not_init (h : s.Apart) (hlock : s.lock = some c) (c' : C)
    (todo : List (ℕ × BitVec 8)) : s.core c' ≠ .init todo := by
  intro hc'
  rw [(h c' todo hc').1] at hlock
  cases hlock

/-- The UART sends a byte: nobody sets it up, as it is not empty. -/
theorem Inv.send {u : Uart} (h : s.Inv) (hapart : s.Apart) (hsend : s.uart.send = some u) :
    Inv { s with uart := u } := by
  rcases hfifo : s.uart.fifo with - | ⟨byte, rest⟩
  · simp only [Uart.send, hfifo, reduceCtorEq] at hsend
  · have hnone : ∀ c todo, s.core c ≠ .init todo := fun c todo hc => by
      rw [(hapart c todo hc).2.1] at hfifo
      cases hfifo
    have hline := h.line hnone
    simp only [Uart.send, hfifo, Option.some.injEq] at hsend
    have hbytes : u.bytes = s.uart.bytes := by
      simp only [← hsend, Uart.bytes, hfifo, List.map_append, List.map_cons, List.map_nil,
        List.append_assoc, List.singleton_append]
    have hlength : u.fifo.length ≤ s.uart.fifo.length := by
      rw [← hsend, hfifo]
      exact Nat.le_succ _
    refine ⟨h.owner, fun hc => hbytes.trans (h.whole hc), fun c hc => ?_, hlength.trans h.room,
      fun _ => ?_, fun c todo hc => absurd hc (hnone c todo), fun x hx => ?_⟩
    · exact ⟨hbytes.trans (h.part c hc).1, hlength.trans (h.part c hc).2⟩
    · rw [← hsend]
      exact hline
    · rw [← hsend] at hx
      rcases List.mem_append.mp hx with hx | hx
      · exact h.wire x hx
      · rw [List.mem_singleton.mp hx]
        exact hline

variable [DecidableEq C]

/-- What a step of the core `c` to `p` has to keep.  The other cores are where they were, and
what they rely on is unchanged: the UART and the messages for the one that has the lock, and the
UART for one that sets it up. -/
theorem Inv.moves (h : s.Inv) (hcore : s'.core = Function.update s.core c p)
    (howner : p.holds = true ↔ s'.lock = some c)
    (hlock : ∀ c' ≠ c, s'.lock = some c' ↔ s.lock = some c')
    (hothers : ∀ c' ≠ c, s.lock = some c' → s'.uart = s.uart ∧ s'.printed = s.printed)
    (hwhole : s'.lock = none → s'.uart.bytes = s'.printed.flatMap encode)
    (hpart : s'.lock = some c → s'.uart.bytes = s'.printed.flatMap encode ++ p.sent ∧
      s'.uart.fifo.length ≤ p.room)
    (hroom : s'.uart.fifo.length ≤ 2)
    (hline : (∀ c' todo, c' ≠ c → s.core c' ≠ .init todo) → (∀ todo, p ≠ .init todo) →
      s'.uart.line = serialLine)
    (hinit : ∀ todo, p = .init todo → InitAt todo s'.uart.line)
    (hsetup : ∀ c' todo, c' ≠ c → s.core c' = .init todo → s'.uart = s.uart)
    (hwire : s'.uart.wire = s.uart.wire) : s'.Inv := by
  have hself : s'.core c = p := by rw [hcore, Function.update_self]
  have hother : ∀ c' ≠ c, s'.core c' = s.core c' := fun c' hc => by
    rw [hcore, Function.update_of_ne hc]
  refine ⟨fun c' => ?_, hwhole, fun c' hc' => ?_, hroom, fun hnone => ?_, fun c' todo hc' => ?_, ?_⟩
  · by_cases hc : c' = c
    · rw [hc, hself]
      exact howner
    · rw [hother c' hc, h.owner, hlock c' hc]
  · by_cases hc : c' = c
    · rw [hc, hself]
      exact hpart (hc ▸ hc')
    · have hc'' := (hlock c' hc).mp hc'
      obtain ⟨huart, hprinted⟩ := hothers c' hc hc''
      rw [hother c' hc, huart, hprinted]
      exact h.part c' hc''
  · refine hline (fun c' todo hc => ?_) fun todo => ?_
    · rw [← hother c' hc]
      exact hnone c' todo
    · rw [← hself]
      exact hnone c todo
  · by_cases hc : c' = c
    · rw [hc, hself] at hc'
      exact hinit todo hc'
    · rw [hother c' hc] at hc'
      rw [hsetup c' todo hc hc']
      exact h.init c' todo hc'
  · rw [hwire]
    exact h.wire

/-- A step that only moves a core which does not set up the UART. -/
theorem Inv.goto (h : s.Inv) (hholds : p.holds = (s.core c).holds)
    (hsent : p.sent = (s.core c).sent)
    (hroom : s.lock = some c → s.uart.fifo.length ≤ p.room)
    (hfrom : ∀ todo, s.core c ≠ .init todo) (hto : ∀ todo, p ≠ .init todo) : (s.goto c p).Inv := by
  refine h.moves rfl (hholds ▸ h.owner c) (fun _ _ => Iff.rfl) (fun _ _ _ => ⟨rfl, rfl⟩) h.whole
    (fun hlock => ⟨?_, hroom hlock⟩) h.room (fun hothers _ => h.line fun c' todo => ?_)
    (fun todo hp => absurd hp (hto todo)) (fun _ _ _ _ => rfl) rfl
  · rw [hsent]
    exact (h.part c hlock).1
  · by_cases hc : c' = c
    · rw [hc]
      exact hfrom todo
    · exact hothers c' todo hc

/-- The core that prints gives the UART a byte. -/
theorem Inv.push {byte : BitVec 8} (h : s.Inv) (hapart : s.Apart)
    (hholds : (s.core c).holds = true) (hholds' : p.holds = true)
    (hsent : p.sent = (s.core c).sent ++ [byte])
    (hroom : s.uart.fifo.length + 1 ≤ p.room) :
    Inv { s.goto c p with uart := s.uart.outb 0 byte } := by
  have hlock := (h.owner c).mp hholds
  have hline := h.line (hapart.not_init hlock)
  have hle := p.room_le
  have hout : s.uart.outb 0 byte = ⟨s.uart.line, s.uart.fifo ++ [byte], s.uart.wire⟩ := by
    rw [Uart.outb, if_neg (by rw [hline]; decide), if_pos (by omega)]
  have hother : ∀ c' ≠ c, s.lock ≠ some c' := fun c' hc hc' =>
    hc (Option.some.inj (hc'.symm.trans hlock))
  have hlength : (s.uart.fifo ++ [byte]).length ≤ p.room := by
    rw [List.length_append, List.length_singleton]
    exact hroom
  rw [hout]
  refine h.moves rfl ⟨fun _ => hlock, fun _ => hholds'⟩ (fun _ _ => Iff.rfl)
    (fun c' hc hc' => absurd hc' (hother c' hc)) (fun hfree => nomatch hlock.symm.trans hfree)
    (fun _ => ⟨?_, hlength⟩) (hlength.trans hle) (fun _ _ => hline) (fun todo hp => ?_)
    (fun c' todo _ hc' => absurd hc' (hapart.not_init hlock c' todo)) rfl
  · have hbytes := (h.part c hlock).1
    rw [Uart.bytes] at hbytes
    rw [hsent, Uart.bytes, ← List.append_assoc, hbytes, List.append_assoc]
    rfl
  · rw [hp] at hholds'
    cases hholds'

/-- A step of a core in `serial_init`: nobody prints, and the UART is empty. -/
theorem Inv.stepInit {todo : List (ℕ × BitVec 8)} (h : s.Inv) (hapart : s.Apart)
    (hc : s.core c = .init todo) (hs : s.stepCore c = some s') : s'.Inv := by
  obtain ⟨hfree, hfifo, halone⟩ := hapart c todo hc
  have hnobody : ∀ c', s.lock ≠ some c' := fun c' hc' => nomatch hfree.symm.trans hc'
  have hbytes := h.whole hfree
  rw [Uart.bytes, hfifo] at hbytes
  rcases todo with - | ⟨⟨reg, byte⟩, todo⟩
  · simp only [stepCore, hc, Option.some.injEq] at hs
    subst hs
    have hline := (h.init c [] hc).finish
    refine h.moves rfl ⟨nofun, fun hc' => absurd hc' (hnobody c)⟩ (fun _ _ => Iff.rfl)
      (fun c' _ hc' => absurd hc' (hnobody c')) h.whole (fun hc' => absurd hc' (hnobody c)) h.room
      (fun _ _ => hline) nofun (fun c' todo hne hc' => absurd (halone c' todo hc') hne) rfl
  · simp only [stepCore, hc, Option.some.injEq] at hs
    subst hs
    obtain ⟨hnext, hempty, hwire⟩ := (h.init c _ hc).step hfifo
    refine h.moves rfl ⟨nofun, fun hc' => absurd hc' (hnobody c)⟩ (fun _ _ => Iff.rfl)
      (fun c' _ hc' => absurd hc' (hnobody c')) (fun _ => ?_) (fun hc' => absurd hc' (hnobody c))
      ?_ (fun _ hp => absurd rfl (hp todo)) ?_
      (fun c' todo hne hc' => absurd (halone c' todo hc') hne) hwire
    · show (s.uart.outb reg byte).bytes = s.printed.flatMap encode
      rw [Uart.bytes, hempty, hwire, hbytes]
    · show (s.uart.outb reg byte).fifo.length ≤ 2
      rw [hempty]
      exact Nat.zero_le 2
    · intro todo' hp
      cases hp
      exact hnext

/-- A core that waits for the lock gets it. -/
theorem Inv.lock {msg : List (BitVec 8)} (h : s.Inv) (hc : s.core c = .spin msg)
    (hfree : s.lock = none) : Inv { s.goto c (.poll [] msg) with lock := some c } := by
  refine h.moves rfl ⟨fun _ => rfl, fun _ => rfl⟩ (fun c' hne => ?_)
    (fun c' _ hc' => nomatch hfree.symm.trans hc') nofun (fun _ => ⟨?_, h.room⟩) h.room
    (fun hothers _ => h.line fun c' todo => ?_) nofun (fun _ _ _ _ => rfl) rfl
  · rw [hfree]
    exact ⟨fun hc' => absurd (Option.some.inj hc').symm hne, nofun⟩
  · exact (h.whole hfree).trans (List.append_nil _).symm
  · by_cases hne : c' = c
    · rw [hne, hc]
      nofun
    · exact hothers c' todo hne

/-- The message is printed, and the lock released. -/
theorem Inv.unlock {done : List (BitVec 8)} (h : s.Inv) (hapart : s.Apart)
    (hc : s.core c = .poll done []) :
    Inv { s.goto c .idle with lock := none, printed := s.printed ++ [done] } := by
  have hlock : s.lock = some c := (h.owner c).mp (by rw [hc]; rfl)
  have hother : ∀ c' ≠ c, s.lock ≠ some c' := fun c' hne hc' =>
    hne (Option.some.inj (hc'.symm.trans hlock))
  refine h.moves rfl ⟨nofun, nofun⟩ (fun c' hne => ⟨nofun, fun hc' => absurd hc' (hother c' hne)⟩)
    (fun c' hne hc' => absurd hc' (hother c' hne)) (fun _ => ?_) nofun h.room
    (fun _ _ => h.line (hapart.not_init hlock)) nofun (fun _ _ _ _ => rfl) rfl
  have hbytes := (h.part c hlock).1
  rw [hc, PrintState.sent] at hbytes
  show s.uart.bytes = (s.printed ++ [done]).flatMap encode
  rw [hbytes, List.flatMap_append, List.flatMap_singleton]

theorem Inv.stepCore (h : s.Inv) (hapart : s.Apart) (hs : s.stepCore c = some s') : s'.Inv := by
  rcases hc : s.core c with - | todo | msg | ⟨done, todo⟩ | ⟨done, todo⟩ | ⟨done, byte, todo⟩
  · simp only [Console.stepCore, hc, reduceCtorEq] at hs
  · exact h.stepInit hapart hc hs
  · simp only [Console.stepCore, hc] at hs
    split at hs
    next hfree =>
      cases hs
      exact h.lock hc hfree
    next => cases hs
  · rcases todo with - | ⟨byte, todo⟩
    · simp only [Console.stepCore, hc, Option.some.injEq] at hs
      subst hs
      exact h.unlock hapart hc
    · simp only [Console.stepCore, hc] at hs
      split at hs
      next hready =>
        cases hs
        -- the UART is empty, whatever the next byte needs
        have hfifo : s.uart.fifo.length = 0 := by
          rw [List.isEmpty_iff.mp hready]
          rfl
        refine h.goto ?_ ?_ (fun _ => hfifo ▸ Nat.zero_le _) (by rw [hc]; nofun) ?_
        · rw [hc]
          split <;> rfl
        · rw [hc]
          split
          next => rfl
          next hbyte =>
            show encode done ++ (if byte = 0x0a then [0x0d] else []) = encode done
            rw [if_neg hbyte, List.append_nil]
        · split <;> nofun
      next => cases hs
  · simp only [Console.stepCore, hc, Option.some.injEq] at hs
    subst hs
    have hlock : s.lock = some c := (h.owner c).mp (by rw [hc]; rfl)
    have hroom := (h.part c hlock).2
    rw [hc] at hroom
    exact h.push hapart (by rw [hc]; rfl) rfl (by rw [hc]; rfl) (Nat.succ_le_succ hroom)
  · simp only [Console.stepCore, hc, Option.some.injEq] at hs
    subst hs
    have hlock : s.lock = some c := (h.owner c).mp (by rw [hc]; rfl)
    have hroom : s.uart.fifo.length ≤ 1 := by
      have hle := (h.part c hlock).2
      rw [hc, PrintState.room] at hle
      split at hle <;> omega
    exact h.push hapart (by rw [hc]; rfl) rfl (by rw [hc, PrintState.sent_put])
      (Nat.succ_le_succ hroom)

theorem Inv.step (h : s.Inv) (hs : s.Step s') : s'.Inv := by
  obtain ⟨hapart, a, ha⟩ := hs
  cases a with
  | print c msg =>
      simp only [Console.next] at ha
      split at ha
      next hc =>
        cases ha
        exact h.goto (by rw [hc]; rfl) (by rw [hc]; rfl) (fun _ => h.room) (by rw [hc]; nofun) nofun
      next => cases ha
  | init c =>
      simp only [Console.next] at ha
      split at ha
      next hc =>
        cases ha
        have hnot : s.lock ≠ some c := fun hlock => by
          have hholds := (h.owner c).mpr hlock
          rw [hc] at hholds
          cases hholds
        refine h.moves rfl ⟨nofun, fun hlock => absurd hlock hnot⟩ (fun _ _ => Iff.rfl)
          (fun _ _ _ => ⟨rfl, rfl⟩) h.whole (fun hlock => absurd hlock hnot) h.room
          (fun _ hp => absurd rfl (hp serialInit)) ?_ (fun _ _ _ _ => rfl) rfl
        intro todo hp
        cases hp
        exact .start _
      next => cases ha
  | step c => exact h.stepCore hapart ha
  | send =>
      obtain ⟨u, hu, rfl⟩ := Option.map_eq_some_iff.mp ha
      exact h.send hapart hu

end Steps

/-! ### Coming to the end of a message -/

/-- Nobody sets up the UART. -/
def NoInit (s : Console C) : Prop := ∀ c todo, s.core c ≠ .init todo

theorem NoInit.apart {s : Console C} (h : s.NoInit) : s.Apart := fun c todo hc =>
  absurd hc (h c todo)

section Ends

variable [DecidableEq C] {s s' : Console C} {c : C} {p : PrintState}
  {done todo : List (BitVec 8)} {byte : BitVec 8}

theorem NoInit.moves (h : s.NoInit) (hcore : s'.core = Function.update s.core c p)
    (hto : ∀ todo, p ≠ .init todo) : s'.NoInit := by
  intro c' todo
  rw [hcore]
  by_cases hc : c' = c
  · rw [hc, Function.update_self]
    exact hto todo
  · rw [Function.update_of_ne hc]
    exact h c' todo

/-- The UART sends all it holds. -/
theorem NoInit.drains (h : s.NoInit) :
    ∃ u, Run Console.Step s { s with uart := u } ∧ u.ready = true := by
  induction hfifo : s.uart.fifo generalizing s with
  | nil => exact ⟨s.uart, .refl, List.isEmpty_iff.mpr hfifo⟩
  | cons byte rest ih =>
      have hsend : s.next .send = some
          { s with uart := ⟨s.uart.line, rest, s.uart.wire ++ [(s.uart.line, byte)]⟩ } := by
        simp only [Console.next, Uart.send, hfifo, Option.map_some]
      obtain ⟨u, hrun, hu⟩ := ih
        (s := { s with uart := ⟨s.uart.line, rest, s.uart.wire ++ [(s.uart.line, byte)]⟩ }) h rfl
      exact ⟨u, .head ⟨h.apart, .send, hsend⟩ hrun, hu⟩

/-- The next byte of the core can be written, with the help of the UART only. -/
def CanWrite (s : Console C) (c : C) (done : List (BitVec 8)) (byte : BitVec 8)
    (todo : List (BitVec 8)) : Prop :=
  ∃ s', Run Console.Step s s' ∧ s'.NoInit ∧ s'.core c = .poll (done ++ [byte]) todo ∧
    s'.printed = s.printed

/-- The core can come to the end of the message. -/
def CanEnd (s : Console C) (msg : List (BitVec 8)) : Prop :=
  ∃ s', Run Console.Step s s' ∧ s'.lock = none ∧ s'.printed = s.printed ++ [msg]

theorem CanWrite.of_step {a : ConsoleAct C} (h : s.NoInit) (hs : s.next a = some s')
    (hprinted : s'.printed = s.printed) (hs' : s'.CanWrite c done byte todo) :
    s.CanWrite c done byte todo := by
  obtain ⟨s₁, hrun, hnone, hcore, hprinted₁⟩ := hs'
  exact ⟨s₁, .head ⟨h.apart, a, hs⟩ hrun, hnone, hcore, hprinted₁.trans hprinted⟩

theorem CanWrite.canEnd (h : s.CanWrite c done byte todo)
    (hrest : ∀ s' : Console C, s'.NoInit → s'.core c = .poll (done ++ [byte]) todo →
      s'.CanEnd (done ++ [byte] ++ todo)) : s.CanEnd (done ++ byte :: todo) := by
  obtain ⟨s₁, hrun₁, hs₁, hc₁, hprinted₁⟩ := h
  obtain ⟨s', hrun, hlock, hprinted⟩ := hrest s₁ hs₁ hc₁
  refine ⟨s', hrun₁.trans hrun, hlock, ?_⟩
  rw [hprinted, hprinted₁, List.append_assoc, List.singleton_append]

/-- The byte itself. -/
theorem NoInit.puts (h : s.NoInit) (hc : s.core c = .put done byte todo) :
    s.CanWrite c done byte todo := by
  refine ⟨{ s.goto c (.poll (done ++ [byte]) todo) with uart := s.uart.outb 0 byte },
    .single ⟨h.apart, .step c, ?_⟩, h.moves rfl nofun, Function.update_self .., rfl⟩
  simp only [Console.next, Console.stepCore, hc]

/-- A newline, from its carriage return on. -/
theorem NoInit.returns (h : s.NoInit) (hc : s.core c = .carriage done todo) :
    s.CanWrite c done 0x0a todo := by
  have hnext : s.next (.step c) =
      some { s.goto c (.put done 0x0a todo) with uart := s.uart.outb 0 0x0d } := by
    simp only [Console.next, Console.stepCore, hc]
  exact .of_step h hnext rfl (NoInit.puts (h.moves rfl nofun) (Function.update_self ..))

/-- A byte from the start of `serial_write` on. -/
theorem NoInit.writes (h : s.NoInit) (hc : s.core c = .poll done (byte :: todo)) :
    s.CanWrite c done byte todo := by
  obtain ⟨u, hdrains, hu⟩ := h.drains
  suffices hwrites : CanWrite { s with uart := u } c done byte todo by
    obtain ⟨s', hrun, hs'⟩ := hwrites
    exact ⟨s', hdrains.trans hrun, hs'⟩
  have hnext : Console.next { s with uart := u } (.step c) = some (Console.goto { s with uart := u }
      c (if byte = 0x0a then .carriage done todo else .put done byte todo)) := by
    simp only [Console.next, Console.stepCore, hc, hu, if_true]
  by_cases hbyte : byte = 0x0a
  · rw [if_pos hbyte] at hnext
    rw [hbyte]
    exact .of_step h hnext rfl (NoInit.returns (h.moves rfl nofun) (Function.update_self ..))
  · rw [if_neg hbyte] at hnext
    exact .of_step h hnext rfl (NoInit.puts (h.moves rfl nofun) (Function.update_self ..))

theorem NoInit.ends_poll (h : s.NoInit) (hc : s.core c = .poll done todo) :
    s.CanEnd (done ++ todo) := by
  induction todo generalizing s done with
  | nil =>
      refine ⟨{ s.goto c .idle with lock := none, printed := s.printed ++ [done] },
        .single ⟨h.apart, .step c, ?_⟩, rfl, ?_⟩
      · simp only [Console.next, Console.stepCore, hc]
      · rw [List.append_nil]
  | cons byte todo ih => exact (h.writes hc).canEnd fun _ => ih

/-- The core that prints can come to the end of its message. -/
theorem NoInit.ends (h : s.NoInit) (hholds : (s.core c).holds = true) :
    s.CanEnd (s.core c).msg := by
  rcases hc : s.core c with - | todo | msg | ⟨done, todo⟩ | ⟨done, todo⟩ | ⟨done, byte, todo⟩
  case poll => exact h.ends_poll hc
  case carriage => exact (h.returns hc).canEnd fun _ hs' => hs'.ends_poll
  case put => exact (h.puts hc).canEnd fun _ hs' => hs'.ends_poll
  all_goals
    rw [hc] at hholds
    cases hholds

end Ends

end Console

/-! ### Main result -/

/-- **Messages are whole.**  For any number of cores that print any messages, and a UART that was
set up and holds nothing, in any interleaving in which nobody sets up the UART while it is in
use: what it has sent and holds are the printed messages one after the other, and a part of the
one that the core with the lock prints; it never holds more than two bytes, so that none is lost;
everything is sent with 9600 baud; and the core with the lock can come to the end of its
message. -/
theorem console_whole {C : Type} [DecidableEq C] {s₀ s : Console C} (hinit : s₀.Initial)
    (hrun : Run Console.Step s₀ s) :
    (s.lock = none → s.uart.bytes = s.printed.flatMap encode) ∧
    (∀ c, s.lock = some c →
      (∃ part, s.uart.bytes = s.printed.flatMap encode ++ part ∧
        List.IsPrefix part (encode (s.core c).msg)) ∧
      (s.Apart → ∃ s', Run Console.Step s s' ∧ s'.lock = none ∧
        s'.printed = s.printed ++ [(s.core c).msg])) ∧
    s.uart.fifo.length ≤ 2 ∧ ∀ x ∈ s.uart.wire, x.1 = serialLine := by
  have h : s.Inv := Run.invariant (fun _ _ hinv hs => hinv.step hs) hinit.inv hrun
  refine ⟨h.whole, fun c hc => ⟨⟨_, (h.part c hc).1, (s.core c).sent_isPrefix⟩, fun hapart => ?_⟩,
    h.room, h.wire⟩
  exact Console.NoInit.ends (hapart.not_init hc) ((h.owner c).mpr hc)

/-! ### Two cores -/

namespace Console

/-- A run that is given by what happens. -/
def follow {C : Type} [DecidableEq C] (s : Console C) (acts : List (ConsoleAct C)) :
    Option (Console C) :=
  acts.foldlM Console.next s

end Console

/-- Two idle cores. -/
def idleConsole : Console Bool := ⟨none, ⟨serialLine, [], []⟩, fun _ => .idle, []⟩

/-- The first core has the lock, and its newline can be printed. -/
theorem console_whole_newline :
    ∃ s s', Run Console.Step idleConsole s ∧ s.lock = some false ∧ Run Console.Step s s' ∧
      s'.lock = none ∧ s'.printed = [[0x0a]] := by
  have hidle : idleConsole.NoInit := fun _ _ => nofun
  have hspins : (idleConsole.goto false (.spin [0x0a])).NoInit := hidle.moves rfl nofun
  have hrun := Relation.ReflTransGen.head (r := Console.Step)
    ⟨hidle.apart, .print false [0x0a], rfl⟩ (.single ⟨hspins.apart, .step false, rfl⟩)
  obtain ⟨-, hlocked, -⟩ := console_whole
    ⟨rfl, fun _ => rfl, rfl, idleConsole.uart, rfl, (Uart.setUp_eq idleConsole.uart).symm⟩ hrun
  obtain ⟨s', hrun', hs'⟩ := (hlocked false rfl).2
    (hspins.moves (p := .poll [] [0x0a]) rfl nofun).apart
  exact ⟨_, s', hrun, rfl, hrun', hs'⟩

/-- The first core prints two bytes, and a processor that is started meanwhile sets up the UART:
the first byte becomes the divisor, and the second is sent at its baud rate. -/
theorem init_garbles :
    ∃ s, idleConsole.follow
        [.print false [0x41, 0x42], .step false, .step false, .init true, .step true, .step true,
          .step false, .step true, .step true, .step false, .step false, .send, .step false] =
          some s ∧
      s.lock = none ∧ s.printed = [[0x41, 0x42]] ∧ s.uart.bytes = [0x42] ∧
      s.uart.wire = [(⟨0x03, 0x41, 0x00⟩, 0x42)] :=
  ⟨_, rfl, by decide, by decide, by decide, by decide⟩

end Rock
