import Bearmail.Imap.Token
import Bearmail.Lib.BigEndian

/-!
# Milter commands

`Command::serialize` of `smtp/src/inbound/milter/protocol.rs`. The length in front of a frame is added up by
hand for each command, in 32 bits.
-/

namespace Bearmail.Milter

open BigEndian Imap
open Option
open List (append_assoc drop_left' flatMap_cons foldl_cons length_append length_singleton map_cons
  sum_cons take_left')

/-! ## Addresses -/

inductive IpAddr where
  | v4 (octets : Vector UInt8 4)
  | v6 (segments : Vector UInt16 8)
  deriving DecidableEq

def IpAddr.dotted (octets : List UInt8) : String :=
  ".".intercalate (octets.map fun octet => toString octet.toNat)

def IpAddr.colons (segments : List UInt16) : String :=
  ":".intercalate (segments.map fun segment => String.ofList (Nat.toDigits 16 segment.toNat))

/-- The first longest run of zeros, its start and its length. -/
def IpAddr.longestZeros (segments : List UInt16) : Nat × Nat :=
  let scan := segments.zipIdx.foldl (fun (longest, current) (segment, i) =>
    if segment = 0 then
      let current : Nat × Nat := if current.2 = 0 then (i, 1) else (current.1, current.2 + 1)
      (if longest.2 < current.2 then current else longest, current)
    else (longest, (0, 0))) (((0, 0), (0, 0)) : (Nat × Nat) × (Nat × Nat))
  scan.1

def IpAddr.display : IpAddr → String
  | .v4 octets => dotted octets.toList
  | .v6 segments =>
    match segments.toList with
    | [0, 0, 0, 0, 0, 0xffff, a, b] =>
      "::ffff:" ++ dotted [(a >>> 8).toUInt8, a.toUInt8, (b >>> 8).toUInt8, b.toUInt8]
    | list =>
      let (start, len) := longestZeros list
      if 1 < len then colons (list.take start) ++ "::" ++ colons (list.drop (start + len))
      else colons list

example : (IpAddr.v6 #v[0x2001, 0xdb8, 0, 0, 1, 0, 0, 1]).display = "2001:db8::1:0:0:1" := by decide

/-! ## Commands -/

structure Options where
  version : UInt32
  actions : UInt32
  protocol : UInt32
  deriving DecidableEq

structure Macro where
  name : List UInt8
  value : List UInt8
  deriving DecidableEq

structure Macros where
  cmdcode : UInt8
  macros : List Macro
  deriving DecidableEq

inductive Command where
  | abort
  | body (value : List UInt8)
  | endOfBody
  | data
  | connect (hostname : List UInt8) (port : UInt16) (address : IpAddr)
  | macro_ (macros : Macros)
  | header (name value : List UInt8)
  | endOfHeader
  | helo (hostname : List UInt8)
  | mailFrom (sender : List UInt8) (args : Option (List (List UInt8)))
  | rcpt (recipient : List UInt8) (args : Option (List (List UInt8)))
  | optionNegotiation (opt : Options)
  | quit
  | quitNewConnection
  deriving DecidableEq

def smficAbort : UInt8 := 65
def smficBody : UInt8 := 66
def smficConnect : UInt8 := 67
def smficMacro : UInt8 := 68
def smficBodyeob : UInt8 := 69
def smficHelo : UInt8 := 72
def smficQuitNc : UInt8 := 75
def smficHeader : UInt8 := 76
def smficMail : UInt8 := 77
def smficEoh : UInt8 := 78
def smficOptneg : UInt8 := 79
def smficQuit : UInt8 := 81
def smficRcpt : UInt8 := 82
def smficData : UInt8 := 84

variable (command : Command)

namespace Command

def len32 (bytes : List UInt8) : UInt32 := UInt32.ofNat bytes.length

def build (command : UInt8) (len : UInt32) : List UInt8 :=
  toBytes 4 (len + 1).toNat ++ [command]

def withArgs (command : UInt8) (address : List UInt8) (args : Option (List (List UInt8))) : List UInt8 :=
  build command (len32 address + 1 +
      args.elim 0 fun args => args.foldl (fun acc arg => acc + len32 arg) 0 + 1) ++
    address ++ [0] ++ args.elim [] fun args => args.flatMap fun arg => arg ++ [0]

def serialize : Command → List UInt8
  | .abort => build smficAbort 0
  | .body value => build smficBody (len32 value) ++ value
  | .endOfBody => build smficBodyeob 0
  | .connect hostname port address =>
    let family : UInt8 := match address with
      | .v4 _ => 52
      | .v6 _ => 54
    let address := utf8 address.display
    build smficConnect (len32 hostname + 1 + 1 + 2 + len32 address + 1) ++
      hostname ++ [0] ++ [family] ++ toBytes 2 port.toNat ++ address ++ [0]
  | .macro_ macros =>
    build smficMacro (macros.macros.foldl
        (fun acc macro_ => acc + len32 macro_.name + 1 + len32 macro_.value + 1) 1) ++
      [macros.cmdcode] ++ macros.macros.flatMap fun macro_ => macro_.name ++ [0] ++ macro_.value ++ [0]
  | .header name value =>
    build smficHeader (len32 name + 1 + len32 value + 1) ++ name ++ [0] ++ value ++ [0]
  | .endOfHeader => build smficEoh 0
  | .helo hostname => build smficHelo (len32 hostname + 1) ++ hostname ++ [0]
  | .mailFrom sender args => withArgs smficMail sender args
  | .rcpt recipient args => withArgs smficRcpt recipient args
  | .optionNegotiation opt =>
    build smficOptneg 12 ++ toBytes 4 opt.version.toNat ++ toBytes 4 opt.actions.toNat ++
      toBytes 4 opt.protocol.toNat
  | .quit => build smficQuit 0
  | .data => build smficData 0
  | .quitNewConnection => build smficQuitNc 0

def payload (command : Command) : List UInt8 := command.serialize.drop 4

def Announces (command : Command) : Prop :=
  ofBytes (command.serialize.take 4) = command.payload.length

/-! ## The length -/

def args : Command → Option (List (List UInt8))
  | .mailFrom _ args | .rcpt _ args => args
  | _ => none

def total (fields : List (List UInt8)) : Nat := (fields.map List.length).sum

/-- The bytes of the frame: the command, the fields and a NUL after each. -/
def size : Command → Nat
  | .abort | .endOfBody | .data | .endOfHeader | .quit | .quitNewConnection => 1
  | .body value => 1 + value.length
  | .connect hostname _ address => 1 + (hostname.length + 1) + 1 + 2 + ((utf8 address.display).length + 1)
  | .macro_ macros =>
    1 + 1 + (macros.macros.map fun macro_ => macro_.name.length + 1 + (macro_.value.length + 1)).sum
  | .header name value => 1 + (name.length + 1) + (value.length + 1)
  | .helo hostname => 1 + (hostname.length + 1)
  | .mailFrom address args | .rcpt address args =>
    1 + (address.length + 1) + args.elim 0 fun args => total args + args.length
  | .optionNegotiation _ => 13

/-- There is no list of arguments or one of one argument, and the length fits. -/
def Counted (command : Command) : Prop :=
  (∀ args ∈ command.args, args.length = 1) ∧ command.size < 2 ^ 32

instance (command : Command) : Decidable command.Counted := inferInstanceAs (Decidable (_ ∧ _))

/-- A NUL is counted once for all arguments. -/
def declared : Command → Nat
  | .mailFrom address args | .rcpt address args =>
    1 + (address.length + 1) + args.elim 0 fun args => total args + 1
  | command => command.size

theorem foldl_len32 (args : List (List UInt8)) (n : Nat) :
    args.foldl (fun acc arg => acc + len32 arg) (UInt32.ofNat n) = UInt32.ofNat (n + total args) := by
  induction args generalizing n with
  | nil => simp [total]
  | cons arg args ih =>
    rw [foldl_cons, len32, ← UInt32.ofNat_add, ih]
    simp [total, Nat.add_assoc]

theorem foldl_macros (macros : List Macro) (n : Nat) :
    macros.foldl (fun acc macro_ => acc + len32 macro_.name + 1 + len32 macro_.value + 1) (UInt32.ofNat n) =
      UInt32.ofNat (n + (macros.map fun macro_ => macro_.name.length + 1 + (macro_.value.length + 1)).sum) := by
  induction macros generalizing n with
  | nil => simp
  | cons m macros ih =>
    have hstep : UInt32.ofNat n + len32 m.name + 1 + len32 m.value + 1 =
        UInt32.ofNat (n + (m.name.length + 1 + (m.value.length + 1))) := by
      simp [len32, UInt32.ofNat_add, UInt32.add_assoc]
    rw [foldl_cons, hstep, ih]
    simp [Nat.add_assoc]

theorem build_ofNat (command : UInt8) (n : Nat) :
    build command (UInt32.ofNat n) = toBytes 4 (UInt32.ofNat (n + 1)).toNat ++ [command] := by
  rw [UInt32.ofNat_add]
  rfl

/-- The number in front is the declared one, and what follows has the bytes of the frame. -/
def Fronted (bytes : List UInt8) (declared size : Nat) : Prop :=
  ∃ rest, bytes = toBytes 4 (UInt32.ofNat declared).toNat ++ rest ∧ rest.length = size

theorem fronted_build (command : UInt8) {len : UInt32} {n : Nat} (hlen : len = UInt32.ofNat n)
    {rest : List UInt8} {size : Nat} (hsize : size = 1 + rest.length) :
    Fronted (build command len ++ rest) (n + 1) size := by
  refine ⟨command :: rest, ?_, ?_⟩
  · rw [hlen, build_ofNat]
    simp
  · simp [hsize, Nat.add_comm]

theorem length_flatMap_nul (args : List (List UInt8)) :
    (args.flatMap fun arg => arg ++ [0]).length = total args + args.length := by
  induction args with
  | nil => rfl
  | cons arg args ih =>
    simp [total, ih]
    omega

theorem length_flatMap_macros (macros : List Macro) :
    (macros.flatMap fun macro_ => macro_.name ++ [0] ++ macro_.value ++ [0]).length =
      (macros.map fun macro_ => macro_.name.length + 1 + (macro_.value.length + 1)).sum := by
  induction macros with
  | nil => rfl
  | cons m macros ih =>
    rw [flatMap_cons, length_append]
    simp [Nat.add_assoc, Nat.add_comm 1]

theorem fronted_withArgs (command : UInt8) (address : List UInt8) (args : Option (List (List UInt8))) :
    Fronted (withArgs command address args)
      (1 + (address.length + 1) + args.elim 0 fun args => total args + 1)
      (1 + (address.length + 1) + args.elim 0 fun args => total args + args.length) := by
  have hlen : (len32 address + 1 +
      args.elim 0 fun args => args.foldl (fun acc arg => acc + len32 arg) 0 + 1) =
      UInt32.ofNat (address.length + 1 + args.elim 0 fun args => total args + 1) := by
    cases args with
    | none => simp [len32, UInt32.ofNat_add]
    | some args =>
      have hfold := foldl_len32 args 0
      simp only [elim_some, UInt32.ofNat_add, len32] at hfold ⊢
      rw [show (0 : UInt32) = UInt32.ofNat 0 from rfl, hfold]
      simp
  rw [withArgs, append_assoc, append_assoc]
  rw [show 1 + (address.length + 1) + (args.elim 0 fun args => total args + 1) =
    address.length + 1 + (args.elim 0 fun args => total args + 1) + 1 by omega]
  refine fronted_build command hlen ?_
  cases args with
  | none => simp [Nat.add_comm]
  | some args =>
    simp only [elim_some, length_append, length_flatMap_nul, length_singleton]
    omega

theorem declared_eq : command.declared + command.args.elim 1 List.length = command.size + 1 := by
  cases command with
  | mailFrom address args | rcpt address args =>
    cases args <;> simp [declared, Command.args, size]
    all_goals omega
  | _ => rfl

theorem fronted : Fronted command.serialize command.declared command.size := by
  cases command with
  | abort | endOfBody | data | endOfHeader | quit | quitNewConnection =>
    exact ⟨_, rfl, rfl⟩
  | body value =>
    rw [show declared (.body value) = value.length + 1 from Nat.add_comm ..]
    exact fronted_build _ rfl rfl
  | connect hostname port address =>
    simp only [serialize, declared, size, append_assoc]
    rw [show 1 + (hostname.length + 1) + 1 + 2 + ((utf8 address.display).length + 1) =
      hostname.length + 1 + 1 + 2 + (utf8 address.display).length + 1 + 1 by omega]
    refine fronted_build _ ?_ ?_
    · simp [len32, UInt32.ofNat_add]
    · simp
      omega
  | macro_ macros =>
    rw [serialize, append_assoc, show declared (.macro_ macros) = size (.macro_ macros) from rfl,
      size, Nat.add_comm, ← Nat.add_assoc]
    refine fronted_build _ ?_ ?_
    · exact (foldl_macros _ 1).trans (by rw [Nat.add_comm])
    · rw [length_append, length_flatMap_macros]
      simp
      omega
  | header name value =>
    simp only [serialize, declared, size, append_assoc]
    rw [show 1 + (name.length + 1) + (value.length + 1) = name.length + 1 + value.length + 1 + 1 by omega]
    refine fronted_build _ ?_ ?_
    · simp [len32, UInt32.ofNat_add]
    · simp
      omega
  | helo hostname =>
    simp only [serialize, declared, size, append_assoc]
    rw [Nat.add_comm 1]
    refine fronted_build _ ?_ ?_
    · simp [len32, UInt32.ofNat_add]
    · simp
      omega
  | mailFrom address args =>
    exact fronted_withArgs smficMail address args
  | rcpt address args =>
    exact fronted_withArgs smficRcpt address args
  | optionNegotiation opt =>
    simp only [serialize, declared, size, append_assoc]
    exact fronted_build _ (n := 12) rfl (by simp)

theorem length_payload : command.payload.length = command.size := by
  obtain ⟨rest, heq, hlength⟩ := command.fronted
  rw [payload, heq, drop_left' (length_toBytes ..), hlength]

theorem announces_iff : command.Announces ↔ command.Counted := by
  obtain ⟨rest, heq, hlength⟩ := command.fronted
  have htake : ofBytes (command.serialize.take 4) = command.declared % 2 ^ 32 := by
    rw [heq, take_left' (length_toBytes ..), ofBytes_toBytes]
    simp
  rw [Announces, length_payload]
  have hdeclared := command.declared_eq
  cases hargs : command.args with
  | none =>
    simp only [hargs, elim_none, Counted] at hdeclared ⊢
    simp only [reduceCtorEq, mem_def, false_implies, implies_true, true_and]
    omega
  | some args =>
    simp only [hargs, elim_some, Counted] at hdeclared ⊢
    simp only [mem_def, Option.some.injEq, forall_eq']
    omega

end Command

end Bearmail.Milter
