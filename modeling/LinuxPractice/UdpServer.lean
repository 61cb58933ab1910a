import LinuxPractice.CppString
import LinuxPractice.FirstSeen
import LinuxPractice.Transition

/-!
# UdpServer: a chat over datagrams

`UdpServer.hpp`. `user_list` maps the printed address of a client to its
socket address, so clients that differ in the port only share an entry.
-/
namespace UdpServer

open CppString Decimal Transition Transition.System

/-- An IPv4 address. -/
structure InAddr where
  a : UInt8
  b : UInt8
  c : UInt8
  d : UInt8
  deriving DecidableEq, Repr

/-- `sin_port` is in network byte order. -/
structure SockaddrIn where
  sinAddr : InAddr
  sinPort : UInt16
  deriving DecidableEq, Repr

/-- The dots-and-decimals form. -/
def inetNtoa (x : InAddr) : Bytes :=
  print x.a.toNat ++ 46 :: (print x.b.toNat ++ 46 :: (print x.c.toNat ++ 46 :: print x.d.toNat))

def ntohs (port : UInt16) : UInt16 := port <<< 8 ||| port >>> 8

/-- `size`. -/
def size : Nat := 1024

abbrev UserList := List (Bytes × SockaddrIn)

/-- One call of `sendto`: the address and the bytes. -/
abbrev Send := SockaddrIn × Bytes

def userCheck (users : UserList) (ip : Bytes) (client : SockaddrIn) : UserList :=
  FirstSeen.insert users ip client

/-- The order in which the hash map is gone through is left open. -/
def broadcast (users : UserList) (info : Bytes) : Multiset Send :=
  (users.map Prod.snd : Multiset SockaddrIn).map fun user => (user, info)

/-- `func_t`: the message, the address and the port. -/
abbrev Func := Bytes → Bytes → UInt16 → Bytes

/-- `Handler` of `Main.cc`: "[ip:port]# " before the message. -/
def handler : Func := fun str clientip clientport =>
  91 :: (clientip ++ 58 :: (print clientport.toNat ++ [93, 35, 32] ++ str))

/-- What `recvfrom` returns; of a datagram longer than `inbuffer` it drops the rest. -/
inductive Recv where
  | error : Recv
  | datagram : SockaddrIn → Bytes → Recv
  deriving DecidableEq, Repr

/-- `sent` belongs to the last datagram. With `overrun` a zero was written behind `inbuffer`, and
there are no steps after it. -/
structure State where
  userList : UserList
  sent : Multiset Send
  overrun : Bool

def init : State := ⟨[], 0, false⟩

/-- The message of a datagram: `inbuffer` is read up to its first zero. -/
def message (func : Func) (client : SockaddrIn) (data : Bytes) : Bytes :=
  func (data.takeWhile (· != 0)) (inetNtoa client.sinAddr) (ntohs client.sinPort)

/-- One iteration of the loop of `Run`. -/
def step (func : Func) (s : State) (r : Recv) : Option State :=
  if s.overrun then none
  else
    match r with
    | .error => some s
    | .datagram client data =>
      let inbuffer := data.take size
      if inbuffer.length < size then
        let users := userCheck s.userList (inetNtoa client.sinAddr) client
        let info := message func client inbuffer
        some ⟨users, broadcast users info, false⟩
      else some { s with overrun := true }

def system (func : Func) : System State Recv where
  init := init
  step := step func

/-- The clients that the datagrams come from. -/
def senders (recvs : List Recv) : List SockaddrIn :=
  recvs.filterMap fun
    | .error => none
    | .datagram client _ => some client

/-- After each datagram, what `func` makes of its bytes has gone once to every client from which
one has come so far. -/
def Delivered (func : Func) (recvs : List Recv) : Prop :=
  ∀ before client data, before ++ [.datagram client data] <+: recvs →
    ∃ s, (system func).run init (before ++ [.datagram client data]) = some s ∧
      s.overrun = false ∧
      s.sent = (senders (before ++ [.datagram client data])).toFinset.val.map fun user =>
        (user, func data (inetNtoa client.sinAddr) (ntohs client.sinPort))

theorem dot_not_mem (n : Nat) : (46 : UInt8) ∉ print n := not_mem_print (by decide) n

theorem inetNtoa_injective : Function.Injective inetNtoa := by
  intro x y h
  obtain ⟨ha, h⟩ := append_cons_inj (dot_not_mem _) (dot_not_mem _) h
  obtain ⟨hb, h⟩ := append_cons_inj (dot_not_mem _) (dot_not_mem _) h
  obtain ⟨hc, hd⟩ := append_cons_inj (dot_not_mem _) (dot_not_mem _) h
  cases x
  cases y
  simp only [InAddr.mk.injEq, ← UInt8.toNat_inj]
  exact ⟨print_injective ha, print_injective hb, print_injective hc, print_injective hd⟩

def key (client : SockaddrIn) : Bytes := inetNtoa client.sinAddr

theorem injOn_key_iff {clients : Set SockaddrIn} :
    Set.InjOn key clients ↔ Set.InjOn SockaddrIn.sinAddr clients := by
  constructor
  · intro h x hx y hy he
    exact h hx hy (congrArg inetNtoa he)
  · intro h x hx y hy he
    exact h hx hy (inetNtoa_injective he)

theorem broadcast_eq_iff {users : UserList} {info : Bytes} {clients : Multiset SockaddrIn} :
    broadcast users info = clients.map (fun user => (user, info)) ↔
      (users.map Prod.snd : Multiset SockaddrIn) = clients := by
  have hinj : Function.Injective fun user : SockaddrIn => (user, info) :=
    fun _ _ h => (Prod.mk.inj h).1
  exact (Multiset.map_injective hinj).eq_iff

/-- No datagram fills `inbuffer`. -/
def Short (recvs : List Recv) : Prop :=
  ∀ client data, .datagram client data ∈ recvs → data.length < size

/-- `func` makes of a datagram up to its first zero what it makes of all of it. -/
def Kept (func : Func) (recvs : List Recv) : Prop :=
  ∀ client data, .datagram client data ∈ recvs →
    message func client data = func data (inetNtoa client.sinAddr) (ntohs client.sinPort)

variable {func : Func} {recvs : List Recv} {s t : State} {client : SockaddrIn} {data : Bytes}

@[simp] theorem senders_error (recvs : List Recv) : senders (recvs ++ [.error]) = senders recvs := by
  simp [senders]

@[simp] theorem senders_datagram (recvs : List Recv) (client : SockaddrIn) (data : Bytes) :
    senders (recvs ++ [.datagram client data]) = senders recvs ++ [client] := by
  simp [senders]

@[simp] theorem short_error : Short (recvs ++ [.error]) ↔ Short recvs := by simp [Short]

@[simp] theorem kept_error : Kept func (recvs ++ [.error]) ↔ Kept func recvs := by simp [Kept]

theorem forall_datagram {P : SockaddrIn → Bytes → Prop} :
    (∀ c d, .datagram c d ∈ recvs ++ [.datagram client data] → P c d) ↔
      (∀ c d, .datagram c d ∈ recvs → P c d) ∧ P client data := by
  simp only [List.mem_append, List.mem_singleton, Recv.datagram.injEq]
  constructor
  · intro h
    exact ⟨fun c d hd => h c d (.inl hd), h client data (.inr ⟨rfl, rfl⟩)⟩
  · rintro ⟨h, hlast⟩ c d (hd | ⟨rfl, rfl⟩)
    · exact h c d hd
    · exact hlast

/-- What the iteration for a datagram does, from a state where nothing was written behind
`inbuffer`. -/
theorem step_datagram (func : Func) (hin : s.overrun = false) (client : SockaddrIn) (data : Bytes) :
    ∃ t, step func s (.datagram client data) = some t ∧
      if data.length < size then
        t = ⟨userCheck s.userList (key client) client,
          broadcast (userCheck s.userList (key client) client) (message func client data), false⟩
      else t.overrun = true := by
  simp only [step, hin, Bool.false_eq_true, if_false]
  by_cases hlen : data.length < size
  · have htake : data.take size = data := List.take_of_length_le hlen.le
    exact ⟨_, by rw [htake, if_pos hlen], by rw [if_pos hlen]; rfl⟩
  · have htake : ¬ (data.take size).length < size := by simpa using hlen
    exact ⟨_, by rw [if_neg htake], by rw [if_neg hlen]⟩

/-- As long as the datagrams are short, the list has the first sender of every address. -/
theorem run_short (func : Func) (h : Short recvs) : ∃ s, (system func).run init recvs = some s ∧
    s.overrun = false ∧ FirstSeen.Records key s.userList (senders recvs) := by
  induction recvs using List.reverseRecOn with
  | nil => exact ⟨init, rfl, rfl, FirstSeen.records_nil key⟩
  | append_singleton recvs r ih =>
    cases r with
    | error =>
      obtain ⟨s, hs, hin, hrecords⟩ := ih (short_error.mp h)
      refine ⟨s, ?_, hin, by rwa [senders_error]⟩
      rw [run_concat, hs, Option.bind_some]
      change step func s .error = some s
      rw [step, hin]
      rfl
    | datagram client data =>
      obtain ⟨hshort, hlen⟩ := forall_datagram.mp h
      obtain ⟨s, hs, hin, hrecords⟩ := ih hshort
      obtain ⟨t, ht, hcases⟩ := step_datagram func hin client data
      rw [if_pos hlen] at hcases
      refine ⟨t, ?_, by rw [hcases], ?_⟩
      · rw [run_concat, hs, Option.bind_some]
        exact ht
      · rw [senders_datagram, hcases]
        exact hrecords.insert client

/-- The sends of one datagram, behind others that were short. -/
theorem last_iff (h : Short recvs) (client : SockaddrIn) (data : Bytes) :
    (∃ s, (system func).run init (recvs ++ [.datagram client data]) = some s ∧
      s.overrun = false ∧
      s.sent = (senders (recvs ++ [.datagram client data])).toFinset.val.map fun user =>
        (user, func data (inetNtoa client.sinAddr) (ntohs client.sinPort))) ↔
      data.length < size ∧
        message func client data =
          func data (inetNtoa client.sinAddr) (ntohs client.sinPort) ∧
        Set.InjOn SockaddrIn.sinAddr
          {x | x ∈ senders (recvs ++ [.datagram client data])} := by
  obtain ⟨s, hs, hin, hrecords⟩ := run_short func h
  obtain ⟨t, ht, hcases⟩ := step_datagram func hin client data
  have hrun : (system func).run init (recvs ++ [.datagram client data]) = some t := by
    rw [run_concat, hs, Option.bind_some]
    exact ht
  rw [hrun]
  simp only [Option.some.injEq, exists_eq_left']
  by_cases hlen : data.length < size
  · rw [if_pos hlen] at hcases
    subst hcases
    have hnext := hrecords.insert client
    rw [← senders_datagram recvs client data] at hnext
    simp only [hlen, true_and]
    constructor
    · intro hsent
      -- the sender itself is sent the message
      have hmem : (client, func data (inetNtoa client.sinAddr) (ntohs client.sinPort)) ∈
          broadcast (userCheck s.userList (key client) client) (message func client data) := by
        rw [hsent]
        refine Multiset.mem_map_of_mem _ ?_
        rw [Finset.mem_val, List.mem_toFinset, senders_datagram]
        simp
      obtain ⟨user, -, huser⟩ := Multiset.mem_map.mp hmem
      have hmessage := (Prod.mk.inj huser).2
      rw [← hmessage, broadcast_eq_iff] at hsent
      exact ⟨hmessage, injOn_key_iff.mp (hnext.entries_eq_iff.mp hsent)⟩
    · rintro ⟨hmessage, hinj⟩
      rw [hmessage, broadcast_eq_iff]
      exact hnext.entries_eq_iff.mpr (injOn_key_iff.mpr hinj)
  · rw [if_neg hlen] at hcases
    simp [hlen, hcases]

theorem delivered_concat {r : Recv} : Delivered func (recvs ++ [r]) ↔ Delivered func recvs ∧
    ∀ client data, r = .datagram client data →
      ∃ s, (system func).run init (recvs ++ [.datagram client data]) = some s ∧
        s.overrun = false ∧
        s.sent = (senders (recvs ++ [.datagram client data])).toFinset.val.map fun user =>
          (user, func data (inetNtoa client.sinAddr) (ntohs client.sinPort)) := by
  constructor
  · intro h
    refine ⟨fun before client data hpre => h before client data ?_, ?_⟩
    · exact hpre.trans (List.prefix_append recvs [r])
    · rintro client data rfl
      exact h recvs client data (List.prefix_refl _)
  · rintro ⟨h, hlast⟩ before client data hpre
    rcases List.prefix_concat_iff.mp hpre with heq | hpre
    · obtain ⟨rfl, hr⟩ := List.append_inj' heq rfl
      exact hlast client data (List.singleton_inj.mp hr).symm
    · exact h before client data hpre

theorem kept_handler_iff :
    Kept handler recvs ↔ ∀ client data, .datagram client data ∈ recvs → (0 : UInt8) ∉ data := by
  have hwhole : ∀ client data, message handler client data =
      handler data (inetNtoa client.sinAddr) (ntohs client.sinPort) ↔ (0 : UInt8) ∉ data := by
    intro client data
    rw [← takeWhile_eq_self, message]
    simp [handler]
  simp only [Kept, hwhole]

/-- Every datagram is delivered exactly if all of them are shorter than `inbuffer`, `func` needs
nothing behind a zero, and no two come from one address and different ports. `Handler` copies the
text, so for it there must be no zero. -/
theorem delivered_iff (func : Func) (recvs : List Recv) :
    (Delivered func recvs ↔ Short recvs ∧ Kept func recvs ∧
        Set.InjOn SockaddrIn.sinAddr {client | client ∈ senders recvs}) ∧
      (Kept handler recvs ↔
        ∀ client data, .datagram client data ∈ recvs → (0 : UInt8) ∉ data) := by
  refine ⟨?_, kept_handler_iff⟩
  induction recvs using List.reverseRecOn with
  | nil => simp [Delivered, Short, Kept, senders]
  | append_singleton recvs r ih =>
    rw [delivered_concat, ih]
    cases r with
    | error => simp
    | datagram client data =>
      have hshort : Short (recvs ++ [.datagram client data]) ↔
          Short recvs ∧ data.length < size := forall_datagram
      have hkept : Kept func (recvs ++ [.datagram client data]) ↔ Kept func recvs ∧
          message func client data =
            func data (inetNtoa client.sinAddr) (ntohs client.sinPort) := forall_datagram
      have hmono : {x | x ∈ senders recvs} ⊆
          {x | x ∈ senders (recvs ++ [.datagram client data])} := by
        intro x hx
        exact senders_datagram recvs client data ▸ List.mem_append_left _ hx
      rw [hshort, hkept]
      constructor
      · rintro ⟨⟨hs, hk, -⟩, hlast⟩
        obtain ⟨hlen, hmessage, hinj⟩ := (last_iff hs client data).mp (hlast client data rfl)
        exact ⟨⟨hs, hlen⟩, ⟨hk, hmessage⟩, hinj⟩
      · rintro ⟨⟨hs, hlen⟩, ⟨hk, hmessage⟩, hinj⟩
        refine ⟨⟨hs, hk, hinj.mono hmono⟩, ?_⟩
        rintro client' data' ⟨⟩
        exact (last_iff hs client data).mpr ⟨hlen, hmessage, hinj⟩

def localhost : InAddr := ⟨127, 0, 0, 1⟩

/-- Two clients of one machine: the second one is sent nothing. -/
theorem second_port_not_delivered :
    ¬ Delivered handler
      [.datagram ⟨localhost, 1000⟩ [104, 105], .datagram ⟨localhost, 2000⟩ [104, 111]] := by
  intro h
  obtain ⟨s, hs, -, hsent⟩ := h [.datagram ⟨localhost, 1000⟩ [104, 105]] ⟨localhost, 2000⟩
    [104, 111] (List.prefix_refl _)
  have hone : s.sent.card = 1 := by
    cases hs
    rfl
  rw [hsent] at hone
  exact absurd hone (by decide)

end UdpServer
