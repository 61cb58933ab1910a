import LinuxPractice.Getline
import LinuxPractice.UdpServer

/-!
# The chat between UdpClient and UdpServer

`UdpClient.cc` has a thread that sends what is typed and one that prints what
comes. On the way datagrams may be lost, doubled and overtaken, so whatever was
sent once may arrive at any time after it.
-/
namespace UdpClient

open CppString Decimal Dictionary Getline Transition Transition.System UdpServer

/-- What `recvfrom` asks for. -/
def size : Nat := 1023

/-- A longer datagram is not sent. -/
def maxSize : Nat := 65507

/-- `sent` has all datagrams of the clients, `sends` those of the server. -/
structure State (C : Type) where
  server : UdpServer.State
  sent : List (SockaddrIn × Bytes)
  sends : Multiset Send
  line : C → Bytes
  stdin : C → Stdin

/-- A line is sent, the server receives a datagram, or a client does. -/
inductive Action (C : Type) where
  | sendMessage : C → Action C
  | run : SockaddrIn × Bytes → Action C
  | resvMessage : C → Bytes → Action C
  deriving DecidableEq, Repr

inductive Event (C : Type) where
  | entered : C → Bytes → Event C
  | printed : C → Bytes → Event C
  deriving DecidableEq, Repr

section Model

variable {C : Type} [DecidableEq C]

def init (input : C → Bytes) : State C :=
  ⟨UdpServer.init, [], 0, fun _ => [], fun c => ⟨input c, false⟩⟩

/-- `buffer` as it is printed. -/
def buffer (data : Bytes) : Bytes := (data.take size).takeWhile (· != 0)

def step (addr : C → SockaddrIn) (s : State C) : Action C → Option (State C)
  | .sendMessage c =>
    let (line, stdin) := getline (s.line c) (s.stdin c)
    some { s with
      sent := if line.length ≤ maxSize then s.sent ++ [(addr c, line)] else s.sent
      line := Function.update s.line c line
      stdin := Function.update s.stdin c stdin }
  | .run p =>
    if p ∈ s.sent then
      (UdpServer.step handler s.server (.datagram p.1 p.2)).map fun server =>
        { s with
          server := server
          sends := if server.overrun then s.sends else s.sends + server.sent }
    else none
  | .resvMessage c data => if (addr c, data) ∈ s.sends then some s else none

def system (addr : C → SockaddrIn) (input : C → Bytes) : System (State C) (Action C) where
  init := init input
  step := step addr

def event (s : State C) : Action C → Option (Event C)
  | .sendMessage c => some (.entered c (getline (s.line c) (s.stdin c)).1)
  | .run _ => none
  | .resvMessage c data => if data.take size = [] then none else some (.printed c (buffer data))

/-- The lines that a client has read. -/
def enteredBy (c : C) (log : List (Event C)) : List Bytes :=
  log.filterMap fun | .entered d line => if d = c then some line else none | _ => none

/-- The lines that a client has sent: `sendto` refuses what fits into no datagram. -/
def sentBy (c : C) (log : List (Event C)) : List Bytes :=
  (enteredBy c log).filter fun line => line.length ≤ maxSize

end Model

/-- The address, the port and the message of a text. -/
def readText (text : Bytes) : Bytes × Bytes × Bytes :=
  let rest := ((text.drop 1).dropWhile (· != 58)).drop 1
  ((text.drop 1).takeWhile (· != 58), rest.takeWhile (· != 93), (rest.dropWhile (· != 93)).drop 3)

/-- What stands in front of a message. -/
def header (client : SockaddrIn) : Bytes :=
  91 :: (inetNtoa client.sinAddr ++ 58 :: (print (ntohs client.sinPort).toNat ++ [93, 35, 32]))

theorem handler_eq (str : Bytes) (client : SockaddrIn) :
    handler str (inetNtoa client.sinAddr) (ntohs client.sinPort) = header client ++ str := by
  simp [handler, header]

theorem not_mem_inetNtoa {b : UInt8} (hb : isDigit b = false) (hdot : b ≠ 46) (x : InAddr) :
    b ∉ inetNtoa x := by
  simp [inetNtoa, not_mem_print hb, hdot]

theorem length_header_le (client : SockaddrIn) : (header client).length ≤ 25 := by
  have hbyte : ∀ b : UInt8, (print b.toNat).length ≤ 3 := fun b =>
    length_print_le (by decide) (b.toNat_lt.trans (by decide))
  have hport : (print (ntohs client.sinPort).toNat).length ≤ 5 :=
    length_print_le (by decide) ((ntohs client.sinPort).toNat_lt.trans (by decide))
  have h1 := hbyte client.sinAddr.a
  have h2 := hbyte client.sinAddr.b
  have h3 := hbyte client.sinAddr.c
  have h4 := hbyte client.sinAddr.d
  simp only [header, inetNtoa, List.length_cons, List.length_append, List.length_nil]
  omega

theorem not_mem_header {b : UInt8} (hb : isDigit b = false) (hno : b ∉ [91, 46, 58, 93, 35, 32])
    (client : SockaddrIn) : b ∉ header client := by
  simp only [List.mem_cons, List.not_mem_nil, or_false, not_or] at hno
  simp [header, not_mem_print hb, not_mem_inetNtoa hb hno.2.1, hno]

theorem readText_header (client : SockaddrIn) (m : Bytes) : readText (header client ++ m) =
    (inetNtoa client.sinAddr, print (ntohs client.sinPort).toNat, m) := by
  have hcolon : (58 : UInt8) ∉ inetNtoa client.sinAddr := not_mem_inetNtoa rfl (by decide) _
  have hbracket : (93 : UInt8) ∉ print (ntohs client.sinPort).toNat := not_mem_print rfl _
  simp only [readText, header, List.cons_append, List.append_assoc, List.drop_succ_cons,
    List.drop_zero, takeWhile_ne hcolon, dropWhile_ne hcolon, List.nil_append,
    takeWhile_ne hbracket, dropWhile_ne hbracket]

/-- A text never loses more than the end of its message. -/
theorem buffer_message (client : SockaddrIn) (data : Bytes) : ∃ m, m <+: data ∧
    buffer (message handler client data) = header client ++ m := by
  have hlen := length_header_le client
  have hzero : ∀ b ∈ header client, (b != 0) = true := by
    intro b hb
    rw [bne_iff_ne]
    rintro rfl
    exact not_mem_header rfl (by decide) client hb
  let m := (data.takeWhile (· != 0)).take (size - (header client).length)
  have hstr : ∀ b ∈ m, (b != 0) = true := by
    intro b hb
    have hmem : b ∈ data.takeWhile (· != 0) := List.mem_of_mem_take hb
    simpa using List.mem_takeWhile_imp hmem
  refine ⟨m, (List.take_prefix _ _).trans (List.takeWhile_prefix _), ?_⟩
  rw [buffer, message, handler_eq, List.take_append, List.take_of_length_le (hlen.trans (by decide))]
  apply List.takeWhile_eq_self_iff.mpr
  intro b hb
  rcases List.mem_append.mp hb with hb | hb
  · exact hzero b hb
  · exact hstr b hb

variable {C : Type} [DecidableEq C] {addr : C → SockaddrIn} {input : C → Bytes} {s t : State C}
  {log : List (Event C)}

/-- A datagram of the server, for a client that has sent something, with what one has sent. -/
def Told (addr : C → SockaddrIn) (log : List (Event C)) (p : Send) : Prop :=
  (∃ c, p.1 = addr c ∧ sentBy c log ≠ []) ∧
    ∃ d, ∃ line ∈ sentBy d log, p.2 = message handler (addr d) (line.take UdpServer.size)

structure Kept (addr : C → SockaddrIn) (input : C → Bytes) (s : State C) (log : List (Event C)) :
    Prop where
  reads : ∀ c, Reads (input c) (enteredBy c log) (s.line c) (s.stdin c)
  sent : ∀ p ∈ s.sent, ∃ c, p.1 = addr c ∧ p.2 ∈ sentBy c log
  users : ∀ p ∈ s.server.userList, ∃ c, p.2 = addr c ∧ sentBy c log ≠ []
  sends : ∀ p ∈ s.sends, Told addr log p
  printed : ∀ c text, .printed c text ∈ log →
    ∃ data, text = buffer data ∧ Told addr log (addr c, data)
  inside : (∀ c, ∀ l ∈ lines (input c), l.length < UdpServer.size) → s.server.overrun = false

theorem kept_init (addr : C → SockaddrIn) (input : C → Bytes) : Kept addr input (init input) [] where
  reads := fun c => reads_init (input c)
  sent := by simp [init]
  users := by simp [init, UdpServer.init]
  sends := by simp [init]
  printed := by simp
  inside := fun _ => rfl

theorem enteredBy_append (c : C) (log log' : List (Event C)) :
    enteredBy c (log ++ log') = enteredBy c log ++ enteredBy c log' := by
  simp [enteredBy]

theorem sentBy_append (c : C) (log log' : List (Event C)) :
    sentBy c (log ++ log') = sentBy c log ++ sentBy c log' := by
  simp [sentBy, enteredBy_append]

theorem mem_enteredBy {c : C} {line : Bytes} (h : line ∈ sentBy c log) : line ∈ enteredBy c log :=
  List.mem_of_mem_filter h

theorem Told.append {p : Send} (h : Told addr log p) (log' : List (Event C)) :
    Told addr (log ++ log') p := by
  obtain ⟨⟨c, hc, hsent⟩, d, line, hline, hp⟩ := h
  refine ⟨⟨c, hc, ?_⟩, d, line, ?_, hp⟩
  · simp [sentBy_append, hsent]
  · rw [sentBy_append]
    exact List.mem_append_left _ hline

theorem Kept.sendMessage {c : C} (hi : Kept addr input s log)
    (h : step addr s (.sendMessage c) = some t) :
    Kept addr input t (log ++ (event s (.sendMessage c)).toList) := by
  simp only [step, Option.some.injEq] at h
  subst h
  have hsame : enteredBy c (log ++ (event s (.sendMessage c)).toList) =
      enteredBy c log ++ [(getline (s.line c) (s.stdin c)).1] := by
    simp [enteredBy, event]
  have hgrow : ∀ d, ∀ l ∈ sentBy d log,
      l ∈ sentBy d (log ++ (event s (.sendMessage c)).toList) := by
    intro d l hl
    rw [sentBy_append]
    exact List.mem_append_left _ hl
  refine ⟨fun d => ?_, fun p hp => ?_, fun p hp => ?_, fun p hp => (hi.sends p hp).append _,
    fun d text hmem => ?_, hi.inside⟩
  · by_cases hd : d = c
    · subst hd
      rw [hsame]
      simpa using (hi.reads d).getline
    · have hother : enteredBy d (log ++ (event s (.sendMessage c)).toList) = enteredBy d log := by
        simp [enteredBy, event, Ne.symm hd]
      rw [hother]
      simpa [hd] using hi.reads d
  · have hold : p ∈ s.sent → ∃ d, p.1 = addr d ∧
        p.2 ∈ sentBy d (log ++ (event s (.sendMessage c)).toList) := by
      intro hp
      obtain ⟨d, hd, hl⟩ := hi.sent p hp
      exact ⟨d, hd, hgrow d _ hl⟩
    simp only at hp
    split at hp
    · rename_i hfits
      rcases List.mem_append.mp hp with hp | hp
      · exact hold hp
      · rw [List.mem_singleton.mp hp]
        refine ⟨c, rfl, ?_⟩
        rw [sentBy, hsame]
        simp [hfits]
    · exact hold hp
  · obtain ⟨d, hd, hsent⟩ := hi.users p hp
    exact ⟨d, hd, by simp [sentBy_append, hsent]⟩
  · have hmem : .printed d text ∈ log := by simpa [event] using hmem
    obtain ⟨data, htext, htold⟩ := hi.printed d text hmem
    exact ⟨data, htext, htold.append _⟩

/-- A datagram is passed on to the users, or it fills `inbuffer`. -/
theorem serve_cases {func : Func} {u v : UdpServer.State} {client : SockaddrIn} {data : Bytes}
    (h : UdpServer.step func u (.datagram client data) = some v) :
    v.overrun = true ∧ UdpServer.size ≤ data.length ∧ v.userList = u.userList ∨
      v.overrun = false ∧ v.userList = userCheck u.userList (inetNtoa client.sinAddr) client ∧
        v.sent = broadcast v.userList (message func client (data.take UdpServer.size)) := by
  simp only [UdpServer.step] at h
  split at h
  · cases h
  · split at h
    · simp only [Option.some.injEq] at h
      subst h
      exact .inr ⟨rfl, rfl, rfl⟩
    · rename_i hlen
      simp only [Option.some.injEq] at h
      subst h
      exact .inl ⟨rfl, by simpa using hlen, rfl⟩

theorem mem_userCheck {users : UserList} {ip : Bytes} {client : SockaddrIn}
    {p : Bytes × SockaddrIn} (h : p ∈ userCheck users ip client) : p ∈ users ∨ p.2 = client := by
  unfold userCheck FirstSeen.insert at h
  split at h
  · exact .inl h
  · rcases List.mem_append.mp h with h | h
    · exact .inl h
    · rw [List.mem_singleton.mp h]
      exact .inr rfl

theorem Kept.run {p : SockaddrIn × Bytes} (hi : Kept addr input s log)
    (h : step addr s (.run p) = some t) : Kept addr input t (log ++ (event s (.run p)).toList) := by
  simp only [step] at h
  split at h
  · rename_i hp
    obtain ⟨server, hserver, rfl⟩ := Option.map_eq_some_iff.mp h
    obtain ⟨c, hc, hline⟩ := hi.sent p hp
    simp only [event, Option.toList_none, List.append_nil]
    rcases serve_cases hserver with ⟨hover, hlen, husers⟩ | ⟨hover, husers, hsent⟩
    · refine ⟨hi.reads, hi.sent, ?_, ?_, hi.printed, fun hshort => ?_⟩
      · rw [husers]
        exact hi.users
      · simpa [hover] using hi.sends
      · rcases (hi.reads c).mem (mem_enteredBy hline) with hmem | hnil
        · exact absurd (hshort c _ hmem) (Nat.not_lt_of_le hlen)
        · rw [hnil] at hlen
          exact absurd hlen (by decide)
    · have hall : ∀ q ∈ server.userList, ∃ d, q.2 = addr d ∧ sentBy d log ≠ [] := by
        intro q hq
        rw [husers] at hq
        rcases mem_userCheck hq with hq | hq
        · exact hi.users q hq
        · exact ⟨c, hq.trans hc, List.ne_nil_of_mem hline⟩
      refine ⟨hi.reads, hi.sent, hall, fun q hq => ?_, hi.printed, fun _ => hover⟩
      simp only [hover, Bool.false_eq_true, if_false, Multiset.mem_add, hsent] at hq
      rcases hq with hq | hq
      · exact hi.sends q hq
      · obtain ⟨user, huser, rfl⟩ := Multiset.mem_map.mp hq
        obtain ⟨entry, hentry, rfl⟩ := List.mem_map.mp (Multiset.mem_coe.mp huser)
        exact ⟨hall entry hentry, c, p.2, hline, by rw [hc]⟩
  · cases h

theorem Kept.resvMessage {c : C} {data : Bytes} (hi : Kept addr input s log)
    (h : step addr s (.resvMessage c data) = some t) :
    Kept addr input t (log ++ (event s (.resvMessage c data)).toList) := by
  simp only [step] at h
  split at h <;> cases h
  rename_i hmem
  have htold := hi.sends _ hmem
  by_cases hnil : data.take size = []
  · simpa [event, hnil] using hi
  · have hlog : (event s (.resvMessage c data)).toList = [.printed c (buffer data)] := by
      simp [event, hnil]
    rw [hlog]
    have hsame : ∀ d, enteredBy d (log ++ [.printed c (buffer data)]) = enteredBy d log := by
      intro d
      simp [enteredBy]
    refine ⟨fun d => ?_, fun p hp => ?_, fun p hp => ?_, fun p hp => (hi.sends p hp).append _,
      fun d text htext => ?_, hi.inside⟩
    · rw [hsame]
      exact hi.reads d
    · obtain ⟨d, hd, hl⟩ := hi.sent p hp
      exact ⟨d, hd, by rwa [sentBy, hsame]⟩
    · obtain ⟨d, hd, hsent⟩ := hi.users p hp
      exact ⟨d, hd, by rwa [sentBy, hsame]⟩
    · rcases List.mem_append.mp htext with htext | htext
      · obtain ⟨old, hold, hwas⟩ := hi.printed d text htext
        exact ⟨old, hold, hwas.append _⟩
      · cases List.mem_singleton.mp htext
        exact ⟨data, rfl, htold.append _⟩

theorem kept (h : ((system addr input).logged event).Reachable anyStep (s, log)) :
    Kept addr input s log := by
  refine logged_invariant h (kept_init addr input) fun s a t log hi hs => ?_
  cases a with
  | sendMessage c => exact hi.sendMessage hs
  | run p => exact hi.run hs
  | resvMessage c data => exact hi.resvMessage hs

theorem toNat_ntohs (port : UInt16) :
    (ntohs port).toNat = port.toNat % 256 * 256 + port.toNat / 256 := by
  have hlt : port.toNat < 65536 := port.toNat_lt
  have hleft : port.toNat <<< 8 % 2 ^ 16 = (port.toNat % 256) <<< 8 := by
    simp only [Nat.shiftLeft_eq]
    omega
  have hright : port.toNat >>> 8 = port.toNat / 256 := Nat.shiftRight_eq_div_pow _ _
  have hor : (ntohs port).toNat = port.toNat <<< 8 % 2 ^ 16 ||| port.toNat >>> 8 := rfl
  rw [hor, hleft, hright, ← Nat.shiftLeft_add_eq_or_of_lt (by omega : port.toNat / 256 < 2 ^ 8),
    Nat.shiftLeft_eq]

theorem ntohs_injective : Function.Injective ntohs := by
  intro x y h
  have hx := toNat_ntohs x
  have hy := toNat_ntohs y
  have hxlt : x.toNat < 65536 := x.toNat_lt
  have hylt : y.toNat < 65536 := y.toNat_lt
  rw [h] at hx
  exact UInt16.toNat_inj.mp (by omega)

/-- What stands in the brackets tells who it is. -/
theorem eq_of_header {x y : SockaddrIn} (ha : inetNtoa x.sinAddr = inetNtoa y.sinAddr)
    (hp : print (ntohs x.sinPort).toNat = print (ntohs y.sinPort).toNat) : x = y := by
  have hport := ntohs_injective (UInt16.toNat_inj.mp (print_injective hp))
  have haddr := inetNtoa_injective ha
  cases x
  cases y
  simp_all

/-- Whatever the network does, a client only prints what another one, or itself, has sent, a line or
the beginning of one, behind the address of the client that has sent it, which nobody else has, and
only after it has sent something itself. And as long as the lines are short, the server goes on for
ever. -/
theorem no_impostor (hinj : Function.Injective addr)
    (h : ((system addr input).logged event).Reachable anyStep (s, log)) :
    (∀ c text, .printed c text ∈ log → sentBy c log ≠ [] ∧ newline ∉ text ∧
      ∃ d, ∃ line ∈ sentBy d log, ∃ m, m <+: line ∧ text = header (addr d) ++ m ∧
        readText text =
          (inetNtoa (addr d).sinAddr, print (ntohs (addr d).sinPort).toNat, m) ∧
        ∀ d' m', readText text =
          (inetNtoa (addr d').sinAddr, print (ntohs (addr d').sinPort).toNat, m') → d' = d) ∧
      ((∀ c, ∀ l ∈ lines (input c), l.length < UdpServer.size) → s.server.overrun = false) := by
  have hi := kept h
  refine ⟨fun c text htext => ?_, hi.inside⟩
  obtain ⟨data, rfl, ⟨c', hc, hsent⟩, d, line, hline, hdata⟩ := hi.printed c text htext
  have hself : c = c' := hinj hc
  subst hself
  simp only at hdata
  subst hdata
  obtain ⟨m, hm, htext⟩ := buffer_message (addr d) (line.take UdpServer.size)
  have hpre : m <+: line := hm.trans (List.take_prefix _ _)
  rw [htext]
  refine ⟨hsent, ?_, d, line, hline, m, hpre, rfl, readText_header _ _, fun d' m' h' => ?_⟩
  · rw [List.mem_append, not_or]
    refine ⟨not_mem_header rfl (by decide) _, fun hmem => ?_⟩
    exact (hi.reads d).newline_not_mem (mem_enteredBy hline) (hpre.subset hmem)
  · rw [readText_header] at h'
    simp only [Prod.mk.injEq] at h'
    exact (hinj (eq_of_header h'.1 h'.2.1)).symm

/-- Two clients of one machine, of which the first types "a:b" and the second nothing. -/
def twoAddrs : Bool → SockaddrIn := fun c => ⟨localhost, if c then 1000 else 2000⟩

def twoInputs : Bool → Bytes := fun c => if c then [97, 58, 98, newline] else []

/-- The datagram arrives once at the server, and what it sends twice at the client. -/
def twiceRun : List (Action Bool) :=
  let text := message handler (twoAddrs true) [97, 58, 98]
  [.sendMessage false, .sendMessage true, .run (twoAddrs true, [97, 58, 98]),
    .resvMessage true text, .resvMessage true text]

def twiceEnd : State Bool × List (Event Bool) :=
  (((system twoAddrs twoInputs).logged event).run (init twoInputs, []) twiceRun).get (by decide)

theorem no_impostor_twice : twiceEnd.1.server.overrun = false ∧
    ∃ text, .printed true text ∈ twiceEnd.2 ∧ sentBy true twiceEnd.2 ≠ [] ∧ newline ∉ text := by
  have hinj : Function.Injective twoAddrs := by decide
  have hrun : (((system twoAddrs twoInputs).logged event).run (init twoInputs, [])
      twiceRun).isSome := by decide
  have hreach : ((system twoAddrs twoInputs).logged event).Reachable anyStep
      (twiceEnd.1, twiceEnd.2) := reachable_of_run hrun
  obtain ⟨htexts, hinside⟩ := no_impostor hinj hreach
  have hprinted : .printed true (buffer (message handler (twoAddrs true) [97, 58, 98])) ∈
      twiceEnd.2 := by decide
  obtain ⟨hsent, hline, -⟩ := htexts true _ hprinted
  exact ⟨hinside (by decide), _, hprinted, hsent, hline⟩

end UdpClient
