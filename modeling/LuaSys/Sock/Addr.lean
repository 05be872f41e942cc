import LuaSys.Lib.Memory
import LuaSys.Lib.Word
import Mathlib.Data.List.Induction

/-!
# Socket addresses

The model of `sock_addr_inet` and `sock_addr_file` in `sock_addr.c`, with the layout that
the structures of the address families have on Linux.  The families share a union, and
`bind` and `connect` get as many of its first bytes as `addrlen` says.

All of the headers begin with a family of two bytes.  For a path `addrlen` counts the path
and its terminator, and the family takes the place of the last two bytes that are counted:
the kernel gets a path without its last byte.  Reading the object does not show this, as
the terminator is stored behind the whole path.

## Main definitions

* `SockAddr` — the union and its length, with `SockAddr.inet`, `SockAddr.getInet`,
  `SockAddr.file` and `SockAddr.getFile`.
* `SockAddr.passed` — what the kernel gets.
* `SockCall`, `Setting` — calls on an object, and what they set.
* `SockAddr.Decodes` — the property.

## Main results

* `SockAddr.decodes_inet`, `SockAddr.not_decodes_file` — one call of each kind.
* `SockAddr.getFile_file` — a path is read back nevertheless.
* `decodes_iff` — after any calls, exactly the internet addresses reach the kernel.
* `path_is_cut` — a path of one byte.
-/

namespace LuaSys.Sock

open LuaSys.Lib

/-! ## The layout -/

/-- `AF_LOCAL`, `AF_INET` and `AF_INET6`. -/
def afLocal : ℕ := 1
def afInet : ℕ := 2
def afInet6 : ℕ := 10

/-- `SOCK_ADDR_LEN`, the size of the union. -/
def sockAddrLen : ℕ := 112

/-- `sizeof(struct sockaddr_in)`, `sizeof(struct sockaddr_in6)` and the size of `sun_path`. -/
def sockaddrInSize : ℕ := 16
def sockaddrIn6Size : ℕ := 28
def sunPathSize : ℕ := 108

/-- The offsets of the port, of the address of each family and of the path. -/
def portOffset : ℕ := 2
def sinAddrOffset : ℕ := 4
def sin6AddrOffset : ℕ := 8
def sunPathOffset : ℕ := 2

/-- `struct sock_addr`. -/
structure SockAddr where
  u : Mem
  addrlen : ℕ

/-- `(unsigned short) port`. -/
def u16 (port : ℤ) : ℕ := (port % 65536).toNat

/-- `ntohs` of a field. -/
def loadBe16 (m : Mem) (off : ℕ) : ℕ := 256 * (m off).toNat + (m (off + 1)).toNat

/-- `sock_checkladdr`: the length of the address and its family; `none` is the error "invalid
binary_address". -/
def sockCheckladdr (addr : List UInt8) : Option (ℕ × ℕ) :=
  let inLen : ℕ := if addr.length = 4 then 4 else 16
  if int32 addr.length = inLen then some (inLen, if inLen = 4 then afInet else afInet6) else none

namespace SockAddr

/-! ## The functions -/

/-- `sa_family`. -/
def family (s : SockAddr) : ℕ := load16 s.u 0

/-- The part of `sock_addr_inet` behind the arguments. -/
def setInet (s : SockAddr) (af : ℕ) (port : ℤ) (addr : List UInt8) : SockAddr :=
  let u := writeBytes s.u 0 (List.replicate sockAddrLen 0)
  let u := writeBytes u 0 (le16 af)
  let u := writeBytes u portOffset (be16 (u16 port))
  if af = afInet then ⟨writeBytes u sinAddrOffset addr, sockaddrInSize⟩
  else ⟨writeBytes u sin6AddrOffset addr, sockaddrIn6Size⟩

/-- `sock_addr_inet` with a port; `none` is an error. -/
def inet (s : SockAddr) (port : ℤ) (addr : Option (List UInt8)) : Option SockAddr :=
  match addr with
  | none => some (s.setInet afInet port [])
  | some addr => (sockCheckladdr addr).map fun r => s.setInet r.2 port (addr.take r.1)

/-- `sock_addr_inet` without a port. -/
def getInet (s : SockAddr) : Option (ℕ × List UInt8) :=
  if s.family = afInet then some (loadBe16 s.u portOffset, readBytes s.u sinAddrOffset 4)
  else if s.family = afInet6 then some (loadBe16 s.u portOffset, readBytes s.u sin6AddrOffset 16)
  else none

/-- `sock_addr_file` with a path; `none` is a path that is too long. -/
def file (s : SockAddr) (path : List UInt8) : Option SockAddr :=
  if path.length < sunPathSize then
    let u := writeBytes s.u 0 (le16 afLocal)
    some ⟨writeBytes u sunPathOffset (path ++ [0]), path.length + 1⟩
  else none

/-- `sock_addr_file` without a path, which is terminated inside of the union. -/
def getFile (s : SockAddr) : Option (List UInt8) :=
  if s.family = afLocal then
    some ((readBytes s.u sunPathOffset (sockAddrLen - sunPathOffset)).takeWhile (· ≠ 0))
  else none

/-- The bytes that `bind` and `connect` pass to the kernel. -/
def passed (s : SockAddr) : List UInt8 := readBytes s.u 0 s.addrlen

end SockAddr

/-! ## Calls on an object -/

/-- A call that sets the address. -/
inductive SockCall
  | inet (port : ℤ) (addr : Option (List UInt8))
  | file (path : List UInt8)

/-- What a call sets: a port and an address of a family, or a path. -/
inductive Setting
  | inet (af port : ℕ) (addr : List UInt8)
  | file (path : List UInt8)

/-- What is set by a call that is accepted; without an address it is the unspecified one. -/
def SockCall.setting : SockCall → Option Setting
  | .inet port none => some (.inet afInet (u16 port) [0, 0, 0, 0])
  | .inet port (some addr) =>
      (sockCheckladdr addr).map fun r => .inet r.2 (u16 port) (addr.take r.1)
  | .file path => if path.length < sunPathSize then some (.file path) else none

/-- The setting that the calls leave. -/
def lastSetting (calls : List SockCall) : Option Setting :=
  (calls.filterMap SockCall.setting).getLast?

namespace SockAddr

/-- A call that is not accepted leaves the object alone. -/
def call (s : SockAddr) : SockCall → SockAddr
  | .inet port addr => (s.inet port addr).getD s
  | .file path => (s.file path).getD s

def calls (s : SockAddr) (cs : List SockCall) : SockAddr := cs.foldl call s

/-- The offset of the address in the header of a family. -/
def addrOffset (af : ℕ) : ℕ := if af = afInet then sinAddrOffset else sin6AddrOffset

/-- The kernel gets all of a setting, and the object gives it back. -/
def Decodes (s : SockAddr) : Setting → Prop
  | .inet af port addr =>
      le16 af <+: s.passed ∧ be16 port <+: s.passed.drop portOffset ∧
        addr <+: s.passed.drop (addrOffset af) ∧ s.getInet = some (port, addr)
  | .file path =>
      le16 afLocal <+: s.passed ∧ path <+: s.passed.drop sunPathOffset ∧ s.getFile = some path

/-! ## What the kernel gets -/

variable {s : SockAddr} {bs : List UInt8} {off : ℕ}

theorem length_passed (s : SockAddr) : s.passed.length = s.addrlen := length_readBytes _ _ _

/-- A field in front of `addrlen` is passed. -/
theorem prefix_passed_drop (hle : off + bs.length ≤ s.addrlen)
    (h : readBytes s.u off bs.length = bs) : bs <+: s.passed.drop off := by
  obtain ⟨k, hk⟩ := Nat.exists_eq_add_of_le hle
  have hpassed : s.passed = readBytes s.u 0 off ++ (bs ++ readBytes s.u (off + bs.length) k) := by
    rw [passed, hk, Nat.add_assoc, readBytes_add, readBytes_add, Nat.zero_add, h]
  have hlen : (readBytes s.u 0 off).length = off := length_readBytes _ _ _
  rw [hpassed, List.drop_append_of_le_length (Nat.le_of_eq hlen.symm),
    List.drop_eq_nil_of_le (Nat.le_of_eq hlen), List.nil_append]
  exact List.prefix_append _ _

theorem le_of_prefix_passed_drop (h : bs <+: s.passed.drop off) : bs.length ≤ s.addrlen - off := by
  have hle := h.length_le
  rw [List.length_drop, length_passed] at hle
  exact hle

/-- The field is determined by the two bytes of its interval. -/
theorem loadBe16_of_readBytes {m : Mem} {n : ℕ} (h : readBytes m off 2 = be16 n)
    (hn : n < 65536) : loadBe16 m off = n := by
  have hbytes : [m off, m (off + 1)] = be16 n := by simpa [readBytes, List.range_succ] using h
  simp only [be16, List.cons.injEq, and_true] at hbytes
  simp only [loadBe16, hbytes.1, hbytes.2, UInt8.toNat_ofNat']
  omega

theorem u16_lt (port : ℤ) : u16 port < 65536 := by
  simp only [u16]
  omega

/-! ## Internet addresses -/

theorem u_setInet (s : SockAddr) (af : ℕ) (port : ℤ) (addr : List UInt8) :
    (s.setInet af port addr).u =
      writeBytes (writeBytes (writeBytes (writeBytes s.u 0 (List.replicate sockAddrLen 0)) 0
        (le16 af)) portOffset (be16 (u16 port))) (addrOffset af) addr := by
  unfold setInet addrOffset
  split <;> rfl

theorem addrlen_setInet (s : SockAddr) (af : ℕ) (port : ℤ) (addr : List UInt8) :
    (s.setInet af port addr).addrlen = if af = afInet then sockaddrInSize else sockaddrIn6Size := by
  unfold setInet
  split <;> rfl

theorem four_le_addrOffset (af : ℕ) : 4 ≤ addrOffset af := by
  unfold addrOffset
  split
  · exact le_refl 4
  · exact Nat.le_add_left 4 4

/-- The fields of the object behind `sock_addr_inet`. -/
theorem readBytes_setInet (s : SockAddr) (af : ℕ) (port : ℤ) (addr : List UInt8) :
    readBytes (s.setInet af port addr).u 0 2 = le16 af ∧
      readBytes (s.setInet af port addr).u portOffset 2 = be16 (u16 port) ∧
      readBytes (s.setInet af port addr).u (addrOffset af) addr.length = addr := by
  have hoff := four_le_addrOffset af
  have hport : portOffset = 2 := rfl
  rw [u_setInet]
  refine ⟨?_, ?_, readBytes_writeBytes_self _ _ _⟩
  · rw [readBytes_writeBytes_of_disjoint (Or.inl (by omega)),
      readBytes_writeBytes_of_disjoint (Or.inl (by omega))]
    exact readBytes_writeBytes_self _ _ (le16 af)
  · rw [readBytes_writeBytes_of_disjoint (Or.inl (by omega))]
    exact readBytes_writeBytes_self _ _ (be16 (u16 port))

/-- Without an address the field is clear. -/
theorem readBytes_setInet_nil (s : SockAddr) (port : ℤ) :
    readBytes (s.setInet afInet port []).u sinAddrOffset 4 = [0, 0, 0, 0] := by
  have hport : portOffset = 2 := rfl
  have hsin : sinAddrOffset = 4 := rfl
  have haddr : addrOffset afInet = sinAddrOffset := rfl
  rw [u_setInet, haddr, readBytes_writeBytes_of_disjoint (Or.inr (by simp)),
    readBytes_writeBytes_of_disjoint (Or.inr (by rw [length_be16]; omega)),
    readBytes_writeBytes_of_disjoint (Or.inr (by rw [length_le16]; omega))]
  rfl

/-- An object with the fields of an internet address gives all of it to the kernel and back. -/
theorem decodes_of_readBytes {af port : ℕ} (haf : af = afInet ∧ bs.length = 4 ∨
      af = afInet6 ∧ bs.length = 16)
    (hfamily : readBytes s.u 0 2 = le16 af) (hport : readBytes s.u portOffset 2 = be16 port)
    (hlt : port < 65536) (haddr : readBytes s.u (addrOffset af) bs.length = bs)
    (hlen : s.addrlen = if af = afInet then sockaddrInSize else sockaddrIn6Size) :
    s.Decodes (.inet af port bs) := by
  have hload : loadBe16 s.u portOffset = port := loadBe16_of_readBytes hport hlt
  -- All the fields are inside of the length that the kernel gets.
  have hfits : portOffset + 2 ≤ s.addrlen ∧ addrOffset af + bs.length ≤ s.addrlen := by
    rcases haf with ⟨rfl, hbs⟩ | ⟨rfl, hbs⟩
    · rw [hlen, hbs, if_pos rfl]
      decide
    · rw [hlen, hbs, if_neg (by decide)]
      decide
  have hhead : le16 af <+: s.passed.drop 0 :=
    prefix_passed_drop (by rw [length_le16]; exact Nat.le_trans (Nat.le_add_left 2 _) hfits.1) hfamily
  refine ⟨hhead, prefix_passed_drop (by rw [length_be16]; exact hfits.1) hport,
    prefix_passed_drop hfits.2 haddr, ?_⟩
  rcases haf with ⟨rfl, hbs⟩ | ⟨rfl, hbs⟩
  · have haf : s.family = afInet := load16_of_readBytes hfamily (by decide)
    rw [hbs] at haddr
    rw [getInet, if_pos haf, hload]
    exact congrArg (fun a => some (port, a)) haddr
  · have haf : s.family = afInet6 := load16_of_readBytes hfamily (by decide)
    rw [hbs] at haddr
    rw [getInet, if_neg (by rw [haf]; decide), if_pos haf, hload]
    exact congrArg (fun a => some (port, a)) haddr

/-- The families of the addresses that are accepted. -/
theorem sockCheckladdr_eq_some {addr : List UInt8} {r : ℕ × ℕ} (h : sockCheckladdr addr = some r) :
    r.2 = afInet ∧ (addr.take r.1).length = 4 ∨ r.2 = afInet6 ∧ (addr.take r.1).length = 16 := by
  unfold sockCheckladdr at h
  by_cases hfour : addr.length = 4
  · obtain ⟨-, heq⟩ := Option.ite_none_right_eq_some.mp h
    rw [if_pos hfour, if_pos rfl] at heq
    rw [← Option.some.inj heq, List.length_take]
    exact Or.inl ⟨rfl, by omega⟩
  · obtain ⟨hlen, heq⟩ := Option.ite_none_right_eq_some.mp h
    rw [if_neg hfour, if_neg (by decide)] at heq
    rw [if_neg hfour] at hlen
    rw [← Option.some.inj heq, List.length_take]
    refine Or.inr ⟨rfl, ?_⟩
    have hlong : 16 ≤ addr.length := by
      by_contra hlt
      rw [int32_of_range (by omega) (by omega)] at hlen
      omega
    omega

/-- **An internet address** reaches the kernel. -/
theorem decodes_inet (s : SockAddr) {port : ℤ} {addr : Option (List UInt8)} {set : Setting}
    (h : (SockCall.inet port addr).setting = some set) : (s.call (.inet port addr)).Decodes set := by
  cases addr with
  | none =>
      have hcall : s.call (.inet port none) = s.setInet afInet port [] := rfl
      obtain ⟨hfamily, hport, -⟩ := readBytes_setInet s afInet port []
      rw [← Option.some.inj h, hcall]
      exact decodes_of_readBytes (Or.inl ⟨rfl, rfl⟩) hfamily hport (u16_lt port)
        (readBytes_setInet_nil s port) (addrlen_setInet _ _ _ _)
  | some addr =>
      rw [SockCall.setting] at h
      obtain ⟨r, hr, rfl⟩ := Option.map_eq_some_iff.mp h
      have hcall : s.call (.inet port (some addr)) = s.setInet r.2 port (addr.take r.1) := by
        rw [call, inet, hr]
        rfl
      obtain ⟨hfamily, hport, haddr⟩ := readBytes_setInet s r.2 port (addr.take r.1)
      rw [hcall]
      exact decodes_of_readBytes (sockCheckladdr_eq_some hr) hfamily hport (u16_lt port) haddr
        (addrlen_setInet _ _ _ _)

/-! ## Paths -/

theorem file_eq_some {path : List UInt8} {s' : SockAddr} (h : s.file path = some s') :
    path.length < sunPathSize ∧ s'.addrlen = path.length + 1 ∧
      s'.u = writeBytes (writeBytes s.u 0 (le16 afLocal)) sunPathOffset (path ++ [0]) := by
  obtain ⟨hlt, heq⟩ := Option.ite_none_right_eq_some.mp h
  rw [← Option.some.inj heq]
  exact ⟨hlt, rfl, rfl⟩

/-- **A path** does not reach the kernel. -/
theorem not_decodes_file {path : List UInt8} {s' : SockAddr} (h : s.file path = some s') :
    ¬s'.Decodes (.file path) := by
  obtain ⟨-, hlen, -⟩ := file_eq_some h
  rintro ⟨hfamily, hpath, -⟩
  have hle := le_of_prefix_passed_drop hpath
  have htwo := hfamily.length_le
  have hoff : sunPathOffset = 2 := rfl
  rw [length_passed, length_le16] at htwo
  omega

/-- The object gives the path back. -/
theorem getFile_file {path : List UInt8} {s' : SockAddr} (h : s.file path = some s')
    (hnul : (0 : UInt8) ∉ path) : s'.getFile = some path := by
  obtain ⟨hlt, -, hu⟩ := file_eq_some h
  have hsize : sunPathSize = 108 := rfl
  have hoff : sunPathOffset = 2 := rfl
  have hend : sockAddrLen = 112 := rfl
  have hfamily : s'.family = afLocal := by
    refine load16_of_readBytes ?_ (by decide)
    rw [hu, readBytes_writeBytes_of_disjoint (Or.inl (by omega))]
    exact readBytes_writeBytes_self _ _ (le16 afLocal)
  have hroom : (path ++ [0]).length ≤ sockAddrLen - sunPathOffset := by
    rw [List.length_append, List.length_singleton]
    omega
  obtain ⟨k, hk⟩ := Nat.exists_eq_add_of_le hroom
  rw [getFile, if_pos hfamily, hk, readBytes_add, hu, readBytes_writeBytes_self, List.append_assoc,
    List.takeWhile_append_of_pos, List.singleton_append, List.takeWhile_cons_of_neg (by decide),
    List.append_nil]
  intro c hc
  simp only [ne_eq, decide_eq_true_eq]
  rintro rfl
  exact hnul hc

end SockAddr

/-! ## Sequences of calls -/

theorem lastSetting_concat (calls : List SockCall) (c : SockCall) :
    lastSetting (calls ++ [c]) = c.setting.or (lastSetting calls) := by
  rw [lastSetting, List.filterMap_append, List.filterMap_cons, List.filterMap_nil]
  cases c.setting with
  | none => simp [lastSetting]
  | some set => simp

/-- A call that is not accepted. -/
theorem call_of_setting_eq_none {c : SockCall} (h : c.setting = none) (s : SockAddr) :
    s.call c = s := by
  cases c with
  | inet port addr =>
      cases addr with
      | none => exact absurd h (by simp [SockCall.setting])
      | some addr =>
          rw [SockCall.setting] at h
          have hcheck : sockCheckladdr addr = none := Option.map_eq_none_iff.mp h
          rw [SockAddr.call, SockAddr.inet, hcheck]
          rfl
  | file path =>
      have hlong : ¬path.length < sunPathSize := fun hlt => by simp [SockCall.setting, hlt] at h
      rw [SockAddr.call, SockAddr.file, if_neg hlong, Option.getD_none]

/-- The last call that is accepted decides. -/
theorem decodes_call_iff {c : SockCall} {set : Setting} (hc : c.setting = some set)
    (s : SockAddr) : (s.call c).Decodes set ↔ ∀ path, set ≠ .file path := by
  cases c with
  | inet port addr =>
      refine iff_of_true (s.decodes_inet hc) ?_
      rintro path rfl
      cases addr with
      | none => exact absurd hc (by simp [SockCall.setting])
      | some addr =>
          rw [SockCall.setting] at hc
          obtain ⟨r, -, heq⟩ := Option.map_eq_some_iff.mp hc
          exact absurd heq (by simp)
  | file path =>
      rw [SockCall.setting] at hc
      obtain ⟨hlt, heq⟩ := Option.ite_none_right_eq_some.mp hc
      obtain rfl := Option.some.inj heq
      have hfile : s.file path = some (s.call (.file path)) := by
        rw [SockAddr.call, SockAddr.file, if_pos hlt, Option.getD_some]
      exact iff_of_false (SockAddr.not_decodes_file hfile) fun h => h path rfl

/-- What the calls leave. -/
theorem decodes_calls_iff (s : SockAddr) (calls : List SockCall) {set : Setting}
    (hset : lastSetting calls = some set) :
    (s.calls calls).Decodes set ↔ ∀ path, set ≠ .file path := by
  induction calls using List.reverseRecOn with
  | nil => exact absurd hset (by simp [lastSetting])
  | append_singleton calls c ih =>
      rw [lastSetting_concat] at hset
      have hcall : s.calls (calls ++ [c]) = (s.calls calls).call c := List.foldl_concat _ _ _ _
      rw [hcall]
      cases hc : c.setting with
      | none =>
          rw [hc, Option.none_or] at hset
          rw [call_of_setting_eq_none hc]
          exact ih hset
      | some set' =>
          rw [hc, Option.some_or] at hset
          obtain rfl := Option.some.inj hset
          exact decodes_call_iff hc _

/-- **Socket addresses.**  After any calls on an object, the kernel gets all of what has been
set last if and only if that is not a path. -/
theorem decodes_iff (s : SockAddr) (calls : List SockCall) :
    (∀ set, lastSetting calls = some set → (s.calls calls).Decodes set) ↔
      ∀ path, lastSetting calls ≠ some (.file path) := by
  constructor
  · intro h path hpath
    exact (decodes_calls_iff s calls hpath).mp (h _ hpath) path rfl
  · intro h set hset
    refine (decodes_calls_iff s calls hset).mpr ?_
    rintro path rfl
    exact h path hset

/-- The path `a` on a new object. -/
theorem path_is_cut :
    ¬∀ (s : SockAddr) (calls : List SockCall) (set : Setting),
      lastSetting calls = some set → (s.calls calls).Decodes set := by
  intro h
  have hpath := (h ⟨fun _ => 0, 0⟩ [.file [97]] (.file [97]) rfl).2.1
  exact absurd hpath.length_le (by decide)

end LuaSys.Sock
