import ServMark.Library.Transition

/-! net_tcp.c: one call of nt_measure or nt_warmup with tcp_server and the connection between them. The kernel takes the
bytes of a send into the buffers and gives them to recv in any portions. Turns of the loop that waits for ready are
no steps. -/
namespace ServMark
open Transition

/-- MSG_SIZE and NUM_MSGS of the file. -/
def tcpMsgSize : Nat := 65536
/-- What the two callers do differently. -/
structure TcpCall where
  msgs : Nat
  /-- Whether the socket is shut down after a connect that fails. -/
  shutsDown : Bool
  /-- What is returned then. -/
  failure : Int

inductive TcpMain where
  | waiting
  | connecting
  | sending (later left : Nat)
  | closing
  | joining
  | done (ret : Int)
  deriving DecidableEq

inductive TcpServer where
  | starting
  | accepting
  | receiving
  | exited
  deriving DecidableEq

structure NetTcp where
  main : TcpMain
  server : TcpServer
  ready : Bool
  listening : Bool
  connected : Bool
  closed : Bool
  buffered : Nat
  totalBytes : Nat

section Steps
variable {c : TcpCall} {room : Nat} {listening : Bool} {s t : NetTcp}

end Steps

/-- The bytes that a caller has still to send. -/
def TcpMain.unsent (c : TcpCall) : TcpMain → Nat
  | .waiting => tcpMsgSize * c.msgs
  | .connecting => tcpMsgSize * c.msgs
  | .sending later left => tcpMsgSize * later + left
  | _ => 0

structure TcpInv (c : TcpCall) (room : Nat) (s : NetTcp) : Prop where
  early : s.main = .waiting ∨ s.main = .connecting → s.connected = false ∧ s.closed = false
  sending : ∀ later left, s.main = .sending later left → 0 < left ∧ s.connected = true ∧ s.closed = false
  closing : s.main = .closing → s.connected = true ∧ s.closed = false
  joining : s.main = .joining → (s.connected = true → s.closed = true) ∧
    (s.connected = false → c.shutsDown = true → s.listening = false)
  done : ∀ ret, s.main = .done ret → s.server = .exited ∧ ret = if s.connected then 0 else c.failure
  ready : s.ready = true ↔ s.server ≠ .starting
  /-- Nothing is lost and nothing comes twice. -/
  carried : s.connected = true → s.totalBytes + s.buffered + s.main.unsent c = tcpMsgSize * c.msgs
  nothing : s.connected = false → s.totalBytes = 0 ∧ s.buffered = 0
  receiving : s.server = .receiving → s.connected = true
  exited : s.server = .exited → (s.connected = true → s.closed = true ∧ s.buffered = 0) ∧
    (s.connected = false → s.listening = false)
  fits : s.buffered ≤ room

section Invariant
variable {c : TcpCall} {room : Nat} {listening : Bool} {s t : NetTcp}

/-- Where the caller is once a connection stands: in a send, or behind the last. -/
def TcpMain.Sends : TcpMain → Prop
  | .sending _ left => 0 < left
  | .closing => True
  | _ => False

/-- The fields about the caller, while it sends. -/
theorem TcpInv.sends {main : TcpMain} (sends : main.Sends) (inv : TcpInv c room s) (connected : t.connected = true)
    (open_ : t.closed = false) (at_ : t.main = main) (server : t.server = s.server) (ready : t.ready = s.ready)
    (before : s.connected = true ∨ s.server ≠ .exited) (left : s.closed = false)
    (carried : t.totalBytes + t.buffered + main.unsent c = tcpMsgSize * c.msgs) (fits : t.buffered ≤ room) :
    TcpInv c room t where
  early := by
    rintro (at_' | at_') <;> rw [at_] at at_' <;> subst at_' <;> exact sends.elim
  sending := by
    intro later left at_'
    rw [at_] at at_'
    subst at_'
    exact ⟨sends, connected, open_⟩
  closing := fun _ => ⟨connected, open_⟩
  joining := by
    intro at_'
    rw [at_] at at_'
    subst at_'
    exact sends.elim
  done := by
    intro ret at_'
    rw [at_] at at_'
    subst at_'
    exact sends.elim
  ready := by rw [ready, server]; exact inv.ready
  carried := fun _ => at_ ▸ carried
  nothing := fun alone => absurd (connected.symm.trans alone) (by decide)
  receiving := fun _ => connected
  exited := by
    intro gone
    rw [server] at gone
    obtain there | running := before
    · exact absurd (left.symm.trans ((inv.exited gone).1 there).1) (by decide)
    · exact absurd gone running
  fits := fits

end Invariant

def TcpMain.weight : TcpMain → Nat
  | .waiting => 5
  | .connecting => 4
  | .sending _ _ => 3
  | .closing => 2
  | .joining => 1
  | .done _ => 0

def TcpServer.weight : TcpServer → Nat
  | .starting => 3
  | .accepting => 2
  | .receiving => 1
  | .exited => 0

/-- A byte that is sent has one step less before it, and one that is received has none. -/
def NetTcp.rank (c : TcpCall) (s : NetTcp) : Nat :=
  2 * s.main.unsent c + s.buffered + s.main.weight + s.server.weight

section Runs
variable {c : TcpCall} {room n : Nat} {listening : Bool} {s t : NetTcp}

end Runs

end ServMark
