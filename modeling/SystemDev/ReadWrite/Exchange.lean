import SystemDev.Library.HexText

/-!
# Exchange of connection records over TCP

`rdma_server.c` and `rdma_client.c` tell each other where to write: each sends its
`ib_connection` as a line of hexadecimal numbers and reads that of its peer back with `sscanf`.
Both have a copy of the code. A record that does not parse is released again, but the function
returns 0 all the same and `main` goes on to use it.

A write outside `msg`, a read outside it and a read of a field that is unset or released are
`none`.

## Main results

* `connection_survives_exchange` — a record that is sent is a record that is received
* `meets_iff` — the messages after which `main` has a record to work with
-/

namespace SystemDev.ReadWrite

open SystemDev.Library

/-- The two programs, each with its own copy of the exchange. -/
inductive Program
  | rdmaServer
  | rdmaClient
  deriving DecidableEq

/-- `struct ib_connection`. -/
structure IbConnection where
  lid : BitVec 32
  qpn : BitVec 32
  psn : BitVec 32
  rkey : BitVec 32
  vaddr : BitVec 64
  deriving DecidableEq

/-- The record behind `data->remote_connection`. A field that nothing was stored in is `none`. -/
structure RemoteRecord where
  lid : Option (BitVec 32)
  qpn : Option (BitVec 32)
  psn : Option (BitVec 32)
  rkey : Option (BitVec 32)
  vaddr : Option (BitVec 64)
  freed : Bool
  deriving DecidableEq

/-- The part of `struct app_data` the exchange works on. -/
structure AppData where
  localConnection : IbConnection
  remoteConnection : Option RemoteRecord
  deriving DecidableEq

/-- What `set_local_ib_connection` asks the device and the system for. Local identifiers have
16 bits, queue pair numbers 24. -/
structure LocalAttributes where
  lid : BitVec 16
  qpNum : BitVec 24
  lrand48 : BitVec 64
  rkey : BitVec 32
  buf : BitVec 64
  size : BitVec 32

/-- `set_local_ib_connection`. -/
def setLocalIbConnection (attr : LocalAttributes) : IbConnection where
  lid := attr.lid.setWidth 32
  qpn := attr.qpNum.setWidth 32
  psn := (attr.lrand48 &&& 0xffffff#64).setWidth 32
  rkey := attr.rkey
  vaddr := attr.buf + attr.size.setWidth 64

/-- `:`. -/
def colon : UInt8 := 0x3a

/-- `sizeof "0000:000000:000000:00000000:0000000000000000"`. -/
def msgSize : Program → ℕ
  | .rdmaServer => 4 + 1 + 6 + 1 + 6 + 1 + 8 + 1 + 16 + 1
  | .rdmaClient => 4 + 1 + 6 + 1 + 6 + 1 + 8 + 1 + 16 + 1

/-- Five numbers with the given widths, separated by colons. -/
def recordText (w₁ w₂ w₃ w₄ w₅ : ℕ) (c : IbConnection) : List UInt8 :=
  hexText w₁ c.lid.toNat ++ colon :: (hexText w₂ c.qpn.toNat ++ colon ::
    (hexText w₃ c.psn.toNat ++ colon :: (hexText w₄ c.rkey.toNat ++ colon ::
      hexText w₅ c.vaddr.toNat)))

/-- What `sprintf` writes into `msg`, without the terminating NUL. -/
def connectionText : Program → IbConnection → List UInt8
  -- "%04x:%06x:%06x:%08x:%016Lx" in both
  | .rdmaServer, c => recordText 4 6 6 8 16 c
  | .rdmaClient, c => recordText 4 6 6 8 16 c

/-- The string at the start of a buffer, `none` if the buffer holds no NUL. -/
def cString (msg : List UInt8) : Option (List UInt8) :=
  if 0 ∈ msg then some (msg.takeWhile (· ≠ 0)) else none

/-- `sscanf` with up to five numbers: what it returns, and the record of a fresh `malloc` it
stores them in. -/
def scanRecord (s : List UInt8) : ℤ × RemoteRecord :=
  let values := scanFields colon 5 s
  -- the end of the text before the first conversion is `EOF`
  (if values = [] ∧ s.dropWhile isSpace = [] then -1 else values.length,
    { lid := values[0]?.map (BitVec.setWidth 32)
      qpn := values[1]?.map (BitVec.setWidth 32)
      psn := values[2]?.map (BitVec.setWidth 32)
      rkey := values[3]?.map (BitVec.setWidth 32)
      vaddr := values[4]?
      freed := false })

/-- The `sscanf` call of `tcp_exch_ib_connection_info`. -/
def sscanf : Program → List UInt8 → ℤ × RemoteRecord
  -- "%x:%x:%x:%x:%Lx" in both
  | .rdmaServer => scanRecord
  | .rdmaClient => scanRecord

/-- How a function ends. -/
inductive Exit
  | returned (ret : ℤ)
  | died
  deriving DecidableEq

/-- `tcp_exch_ib_connection_info`. `written` is what `write` returns, `received` what `read`
gets, `mem` whether `malloc` succeeds. -/
def tcpExchIbConnectionInfo (p : Program) (data : AppData) (written : ℤ)
    (received : List UInt8) (mem : Bool) : Option (Exit × AppData) :=
  if msgSize p < (connectionText p data.localConnection).length + 1 then none
  else if written ≠ msgSize p then some (.returned (-1), data)
  else if received.length ≠ msgSize p then some (.returned (-1), data)
  -- `free` is called on a null pointer only
  else if mem = false then some (.died, { data with remoteConnection := none })
  else
    (cString received).map fun s =>
      let r := sscanf p s
      -- released, and still pointed to
      let remote := if r.1 ≠ 5 then { r.2 with freed := true } else r.2
      (.returned 0, { data with remoteConnection := some remote })

/-! ### What `main` does with the record -/

/-- Read a field through the pointer. -/
def RemoteRecord.get {α : Type} (r : RemoteRecord) (field : RemoteRecord → Option α) : Option α :=
  if r.freed then none else field r

/-- The values `print_ib_connection` prints. -/
def printIbConnection (r : RemoteRecord) : Option IbConnection := do
  let lid ← r.get RemoteRecord.lid
  let qpn ← r.get RemoteRecord.qpn
  let psn ← r.get RemoteRecord.psn
  let rkey ← r.get RemoteRecord.rkey
  let vaddr ← r.get RemoteRecord.vaddr
  return ⟨lid, qpn, psn, rkey, vaddr⟩

/-- `dest_qp_num`, `rq_psn` and `dlid` in `qp_change_state_rtr`. -/
def qpChangeStateRtr (r : RemoteRecord) : Option (BitVec 32 × BitVec 32 × BitVec 16) := do
  let qpn ← r.get RemoteRecord.qpn
  let psn ← r.get RemoteRecord.psn
  let lid ← r.get RemoteRecord.lid
  return (qpn, psn, lid.setWidth 16)

/-- `remote_addr` and `rkey` of the work request in `rdma_write`. -/
def rdmaWrite (r : RemoteRecord) : Option (BitVec 64 × BitVec 32) := do
  let vaddr ← r.get RemoteRecord.vaddr
  let rkey ← r.get RemoteRecord.rkey
  return (vaddr, rkey)

/-- What `main` reads of the record behind the exchange. Only the side without a server name
writes; it changes its state to RTS by way of RTR. -/
def mainReads (servername : Bool) (data : AppData) : Option Unit := do
  let r ← data.remoteConnection
  let _ ← printIbConnection r
  let _ ← qpChangeStateRtr r
  if servername then return () else
    let _ ← rdmaWrite r
    return ()

/-- A record that can be used: not released, with every field set. -/
def liveRecord (c : IbConnection) : RemoteRecord where
  lid := some c.lid
  qpn := some c.qpn
  psn := some c.psn
  rkey := some c.rkey
  vaddr := some c.vaddr
  freed := false

/-! ### Sending -/

/-- The bounds a record keeps that was taken from a device. The key and the address fill their
types. -/
structure IbConnection.Fits (c : IbConnection) : Prop where
  lid : c.lid.toNat < 2 ^ 16
  qpn : c.qpn.toNat < 2 ^ 24
  psn : c.psn.toNat < 2 ^ 24

theorem setLocalIbConnection_fits (attr : LocalAttributes) : (setLocalIbConnection attr).Fits where
  lid := by
    rw [setLocalIbConnection, BitVec.toNat_setWidth]
    exact (Nat.mod_le ..).trans_lt attr.lid.isLt
  qpn := by
    rw [setLocalIbConnection, BitVec.toNat_setWidth]
    exact (Nat.mod_le ..).trans_lt attr.qpNum.isLt
  psn := by
    rw [setLocalIbConnection, BitVec.toNat_setWidth, BitVec.toNat_and]
    exact (Nat.mod_le ..).trans_lt (Nat.and_le_right.trans_lt (by decide))

section Text

variable {c : IbConnection}

theorem IbConnection.Fits.length_connectionText (h : c.Fits) (p : Program) :
    (connectionText p c).length = 44 := by
  have hlid : (hexText 4 c.lid.toNat).length = 4 := length_hexText h.lid
  have hqpn : (hexText 6 c.qpn.toNat).length = 6 := length_hexText h.qpn
  have hpsn : (hexText 6 c.psn.toNat).length = 6 := length_hexText h.psn
  have hrkey : (hexText 8 c.rkey.toNat).length = 8 := length_hexText c.rkey.isLt
  have hvaddr : (hexText 16 c.vaddr.toNat).length = 16 := length_hexText c.vaddr.isLt
  have hrecord : (recordText 4 6 6 8 16 c).length = 44 := by
    simp only [recordText, List.length_append, List.length_cons, hlid, hqpn, hpsn, hrkey, hvaddr]
  cases p <;> exact hrecord

/-- The text fills `msg` with its NUL. -/
theorem IbConnection.Fits.fills_msg (h : c.Fits) (p : Program) :
    (connectionText p c).length + 1 = msgSize p := by
  rw [h.length_connectionText p]
  cases p <;> rfl

/-- Digits and colons only. -/
theorem zero_notMem_connectionText (p : Program) : 0 ∉ connectionText p c := by
  have hdigits : ∀ w n, (0 : UInt8) ∉ hexText w n := fun w n hmem =>
    absurd (isHex_of_mem_hexText hmem) (by decide)
  have hcolon : (0 : UInt8) ≠ colon := by decide
  have hrecord : 0 ∉ recordText 4 6 6 8 16 c := by
    simp only [recordText, List.mem_append, List.mem_cons, hdigits, hcolon, or_self, not_false_iff]
  cases p <;> exact hrecord

theorem colon_ends (rest : List UInt8) :
    ∀ d, (colon :: rest).head? = some d → isHex d = false := by
  intro d hd
  obtain rfl := Option.some_inj.mp hd
  decide

theorem scanFields_hexText {w n k : ℕ} (hw : 2 ≤ w) (hn : n < 2 ^ 64) (rest : List UInt8) :
    scanFields colon (k + 1) (hexText w n ++ colon :: rest) =
      BitVec.ofNat 64 n :: scanFields colon k rest := by
  rw [scanFields, scanHex_hexText hw hn (colon_ends rest)]
  simp

/-- The five numbers of the text, in their order. -/
theorem scanFields_connectionText (p : Program) :
    scanFields colon 5 (connectionText p c) =
      [c.lid.setWidth 64, c.qpn.setWidth 64, c.psn.setWidth 64, c.rkey.setWidth 64, c.vaddr] := by
  have hword : ∀ x : BitVec 32, x.toNat < 2 ^ 64 := fun x => x.isLt.trans (by decide)
  have hlast : scanFields colon 1 (hexText 16 c.vaddr.toNat) = [c.vaddr] := by
    have hscan : scanHex (hexText 16 c.vaddr.toNat ++ []) = some (BitVec.ofNat 64 c.vaddr.toNat, [])
      := scanHex_hexText (by decide) c.vaddr.isLt nofun
    rw [List.append_nil] at hscan
    rw [scanFields, hscan]
    simp
  have hrecord : scanFields colon 5 (recordText 4 6 6 8 16 c) =
      [c.lid.setWidth 64, c.qpn.setWidth 64, c.psn.setWidth 64, c.rkey.setWidth 64,
        c.vaddr] := by
    rw [recordText, scanFields_hexText (by decide) (hword _),
      scanFields_hexText (by decide) (hword _), scanFields_hexText (by decide) (hword _),
      scanFields_hexText (by decide) (hword _), hlast]
    simp
  cases p <;> exact hrecord

end Text

/-! ### Receiving -/

theorem cString_eq_some_iff {msg s : List UInt8} :
    cString msg = some s ↔ 0 ∉ s ∧ ∃ rest, msg = s ++ 0 :: rest := by
  rw [cString]
  constructor
  · intro h
    split_ifs at h with hzero
    obtain rfl := Option.some_inj.mp h
    refine ⟨fun hmem => by simpa using List.mem_takeWhile_imp hmem, ?_⟩
    have hsplit := List.takeWhile_append_dropWhile (p := (· ≠ 0)) (l := msg)
    have hhead := List.head?_dropWhile_not (· ≠ 0) msg
    cases hrest : msg.dropWhile (· ≠ 0) with
    | nil =>
      -- a buffer that is all string holds no NUL
      rw [hrest, List.append_nil] at hsplit
      rw [← hsplit] at hzero
      simpa using List.mem_takeWhile_imp hzero
    | cons c rest =>
      rw [hrest] at hsplit hhead
      obtain rfl : c = 0 := by simpa using hhead
      exact ⟨rest, hsplit.symm⟩
  · rintro ⟨hnone, rest, rfl⟩
    have hall : ∀ c ∈ s, decide (c ≠ 0) = true := fun c hc =>
      decide_eq_true fun heq => hnone (heq ▸ hc)
    rw [if_pos (by simp), List.takeWhile_append_of_pos hall]
    simp

/-- The number of conversions that succeed. -/
theorem sscanf_eq_five_iff (p : Program) (s : List UInt8) :
    (sscanf p s).1 = 5 ↔ (scanFields colon 5 s).length = 5 := by
  have hrecord : (scanRecord s).1 = 5 ↔ (scanFields colon 5 s).length = 5 := by
    rw [scanRecord]
    dsimp only
    split_ifs with heof
    · simp [heof.1]
    · omega
  cases p <;> exact hrecord

/-- The exchange as far as `malloc`, for a record that fits and a message of the full size. -/
theorem tcpExch_of_received (p : Program) {data : AppData} (hfits : data.localConnection.Fits)
    {received : List UInt8} (hlen : received.length = msgSize p) :
    tcpExchIbConnectionInfo p data (msgSize p) received true =
      (cString received).map fun s =>
        let r := sscanf p s
        let remote := if r.1 ≠ 5 then { r.2 with freed := true } else r.2
        (.returned 0, { data with remoteConnection := some remote }) := by
  have hfill := hfits.fills_msg p
  rw [tcpExchIbConnectionInfo, if_neg (by omega), if_neg (not_not.mpr rfl),
    if_neg (not_not.mpr hlen), if_neg (by decide)]

/-- A record that is sent by either program is received by either: the text and its NUL fill
`msg`, and the five fields come back with their values. -/
theorem connection_survives_exchange (p q : Program) {c : IbConnection} (hc : c.Fits) :
    (connectionText p c).length = 44 ∧
      (connectionText p c).length + 1 = msgSize p ∧
      0 ∉ connectionText p c ∧
      sscanf q (connectionText p c) = (5, liveRecord c) ∧
      ∀ data : AppData, data.localConnection.Fits →
        tcpExchIbConnectionInfo q data (msgSize q) (connectionText p c ++ [0]) true =
          some (.returned 0, { data with remoteConnection := some (liveRecord c) }) := by
  have hscan : sscanf q (connectionText p c) = (5, liveRecord c) := by
    have hrecord : scanRecord (connectionText p c) = (5, liveRecord c) := by
      simp [scanRecord, scanFields_connectionText, liveRecord]
    cases q <;> exact hrecord
  refine ⟨hc.length_connectionText p, hc.fills_msg p, zero_notMem_connectionText p, hscan,
    fun data hdata => ?_⟩
  have hlen : (connectionText p c ++ [0]).length = msgSize q := by
    rw [List.length_append, hc.length_connectionText p]
    cases q <;> rfl
  have hstring : cString (connectionText p c ++ [0]) = some (connectionText p c) :=
    cString_eq_some_iff.mpr ⟨zero_notMem_connectionText p, [], rfl⟩
  rw [tcpExch_of_received q hdata hlen, hstring, Option.map_some, hscan]
  rfl

/-- The largest record that fits, from the server to the client. -/
def largestConnection : IbConnection :=
  ⟨0xffff, 0xffffff, 0xffffff, 0xffffffff, 0xffffffffffffffff⟩

theorem largestConnection_survives :
    largestConnection.Fits ∧
      sscanf .rdmaClient (connectionText .rdmaServer largestConnection) =
        (5, liveRecord largestConnection) := by
  have hfits : largestConnection.Fits := ⟨by decide, by decide, by decide⟩
  exact ⟨hfits, (connection_survives_exchange .rdmaServer .rdmaClient hfits).2.2.2.1⟩

/-! ### Messages that do not parse -/

/-- The message holds a string that begins with five numbers between colons. -/
def WellFormedMessage (received : List UInt8) : Prop :=
  ∃ text rest, received = text ++ 0 :: rest ∧ 0 ∉ text ∧ HexFields colon 5 text

/-- Whatever `write` and `malloc` answer, the exchange returns 0 only if five fields were
parsed, and behind a 0 there is a live and fully set record, with which `main` gets through. -/
def Meets (p : Program) (servername : Bool) (data : AppData) (received : List UInt8) : Prop :=
  ∀ (written : ℤ) (mem : Bool), ∃ exit data',
    tcpExchIbConnectionInfo p data written received mem = some (exit, data') ∧
      (exit = .returned 0 →
        (∃ s, cString received = some s ∧ (sscanf p s).1 = 5) ∧
          (∃ c, data'.remoteConnection = some (liveRecord c)) ∧
          (mainReads servername data').isSome)

theorem mainReads_liveRecord (servername : Bool) {data : AppData} {c : IbConnection}
    (h : data.remoteConnection = some (liveRecord c)) : (mainReads servername data).isSome := by
  rw [mainReads, h]
  cases servername <;> rfl

/-- Five conversions set all fields. -/
theorem exists_liveRecord (p : Program) {s : List UInt8} (h : (sscanf p s).1 = 5) :
    ∃ c, (sscanf p s).2 = liveRecord c := by
  have hrecord : ∃ c, (scanRecord s).2 = liveRecord c := by
    have hlen := (sscanf_eq_five_iff p s).mp h
    rw [scanRecord]
    match scanFields colon 5 s, hlen with
    | [lid, qpn, psn, rkey, vaddr], _ =>
      exact ⟨⟨lid.setWidth 32, qpn.setWidth 32, psn.setWidth 32, rkey.setWidth 32, vaddr⟩, rfl⟩
  cases p <;> exact hrecord

/-- A well-formed message is one whose string is scanned to the end of the format. -/
theorem wellFormedMessage_iff (p : Program) {received : List UInt8} :
    WellFormedMessage received ↔ ∃ s, cString received = some s ∧ (sscanf p s).1 = 5 := by
  constructor
  · rintro ⟨text, rest, rfl, hzero, hfields⟩
    refine ⟨text, cString_eq_some_iff.mpr ⟨hzero, rest, rfl⟩, ?_⟩
    rwa [sscanf_eq_five_iff, length_scanFields_eq_iff]
  · rintro ⟨s, hs, hfive⟩
    obtain ⟨hzero, rest, rfl⟩ := cString_eq_some_iff.mp hs
    refine ⟨s, rest, rfl, hzero, ?_⟩
    rwa [sscanf_eq_five_iff, length_scanFields_eq_iff] at hfive

section Received

variable (p : Program) (servername : Bool) {data : AppData} {received : List UInt8}

theorem wellFormed_of_meets (hfits : data.localConnection.Fits)
    (hlen : received.length = msgSize p) (h : Meets p servername data received) :
    WellFormedMessage received := by
  obtain ⟨exit, data', hexch, hzero⟩ := h (msgSize p) true
  rw [tcpExch_of_received p hfits hlen] at hexch
  obtain ⟨s, -, hs⟩ := Option.map_eq_some_iff.mp hexch
  have hexit : exit = .returned 0 := (congrArg Prod.fst hs).symm
  exact (wellFormedMessage_iff p).mpr (hzero hexit).1

theorem meets_of_wellFormed (hfits : data.localConnection.Fits)
    (hlen : received.length = msgSize p) (h : WellFormedMessage received) :
    Meets p servername data received := by
  intro written mem
  obtain ⟨s, hs, hfive⟩ := (wellFormedMessage_iff p).mp h
  have hfill := hfits.fills_msg p
  by_cases hwritten : written = msgSize p
  · subst hwritten
    cases mem with
    | false =>
      refine ⟨.died, { data with remoteConnection := none }, ?_, nofun⟩
      rw [tcpExchIbConnectionInfo, if_neg (by omega), if_neg (not_not.mpr rfl),
        if_neg (not_not.mpr hlen), if_pos rfl]
    | true =>
      obtain ⟨c, hc⟩ := exists_liveRecord p hfive
      refine ⟨.returned 0, { data with remoteConnection := some (liveRecord c) }, ?_, fun _ =>
        ⟨⟨s, hs, hfive⟩, ⟨c, rfl⟩, mainReads_liveRecord servername rfl⟩⟩
      rw [tcpExch_of_received p hfits hlen, hs, Option.map_some]
      simp only [hfive, ne_eq, not_true, if_false, hc]
  · refine ⟨.returned (-1), data, ?_, nofun⟩
    rw [tcpExchIbConnectionInfo, if_neg (by omega), if_pos hwritten]

end Received

/-- The string `0x:1:2:3:4` is read to its end: glibc takes a bare `0x` for zero. -/
example : scanFields colon 5 [0x30, 0x78, 0x3a, 0x31, 0x3a, 0x32, 0x3a, 0x33, 0x3a, 0x34] =
    [0, 1, 2, 3, 4] := by decide

/-- For every message of the full size, the exchange rejects what does not parse exactly if
the message holds a string that begins with five numbers. -/
theorem meets_iff (p : Program) (servername : Bool) (attr : LocalAttributes)
    (remote : Option RemoteRecord) {received : List UInt8} (hlen : received.length = msgSize p) :
    Meets p servername ⟨setLocalIbConnection attr, remote⟩ received ↔
      WellFormedMessage received :=
  ⟨wellFormed_of_meets p servername (setLocalIbConnection_fits attr) hlen,
    meets_of_wellFormed p servername (setLocalIbConnection_fits attr) hlen⟩

/-- The attributes of a device, for the two messages below. -/
def someAttributes : LocalAttributes := ⟨3, 0x48, 0x1234567, 0x1ff00, 0x7f0000000000, 4096⟩

/-- What the peer sends from a device like that. -/
theorem meets_own_message :
    Meets .rdmaServer false ⟨setLocalIbConnection someAttributes, none⟩
      (connectionText .rdmaClient (setLocalIbConnection someAttributes) ++ [0]) := by
  have hfits := setLocalIbConnection_fits someAttributes
  refine (meets_iff .rdmaServer false someAttributes none ?_).mpr ?_
  · rw [List.length_append, hfits.length_connectionText]
    rfl
  · refine ⟨_, [], rfl, zero_notMem_connectionText _, ?_⟩
    rw [← length_scanFields_eq_iff, scanFields_connectionText]
    rfl

/-- A message of zeros: the exchange returns 0 with a record that has been released, and `main`
reads it. -/
theorem not_meets_zeros :
    ¬ Meets .rdmaServer false ⟨setLocalIbConnection someAttributes, none⟩
      (List.replicate 45 0) := by
  intro h
  obtain ⟨text, rest, hmsg, hzero, hfields⟩ := wellFormed_of_meets .rdmaServer false
    (setLocalIbConnection_fits someAttributes) (by rfl) h
  -- the string is empty
  have hnil : text = [] := by
    refine List.eq_nil_iff_forall_not_mem.mpr fun c hc => hzero ?_
    have hmem : c ∈ List.replicate 45 (0 : UInt8) := hmsg ▸ List.mem_append_left _ hc
    exact List.eq_of_mem_replicate hmem ▸ hc
  subst hnil
  exact absurd ((length_scanFields_eq_iff colon 5 []).mpr hfields) (by decide)

end SystemDev.ReadWrite
