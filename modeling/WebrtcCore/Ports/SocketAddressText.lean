import WebrtcCore.Ports.NetAddress
import WebrtcCore.Verified.Decimal
import WebrtcCore.Verified.Delimited

/-!
# Socket addresses as texts

Port of `ToString` and `FromString` of `rtc::SocketAddress` (`rtc_base/socket_address.cc`), in a
build without the debug checks, where `dchecked_cast` is a cast.  `inet_ntop` and `inet_pton` are
parameters.  `none` is the exception of `str.at(0)` on an empty text.
-/

namespace WebrtcCore.Ports.SocketAddressText

open Verified Delimited NetAddress List

/-- `inet_ntop` and `inet_pton` of the platform, for either family. -/
structure Inet where
  ntop4 : InAddr → List UInt8
  ntop6 : In6Addr → List UInt8
  pton4 : List UInt8 → Option InAddr
  pton6 : List UInt8 → Option In6Addr

def isSpace (c : UInt8) : Bool := c = ' '.toUInt8 || 9 ≤ c && c ≤ 13

def isDigit (c : UInt8) : Bool := '0'.toUInt8 ≤ c && c ≤ '9'.toUInt8

/-- The number that digits stand for. -/
def digitsValue (digits : List UInt8) : Nat :=
  digits.foldl (fun value c => value * 10 + (c - '0'.toUInt8).toNat) 0

/-- `strtoul(s, nullptr, 10)`. -/
def strtoul (s : List UInt8) : Nat :=
  let s := s.dropWhile isSpace
  let negative := s.head? = some '-'.toUInt8
  let s := if negative ∨ s.head? = some '+'.toUInt8 then s.tail else s
  let value := digitsValue (s.takeWhile isDigit)
  if 2 ^ 64 ≤ value then 2 ^ 64 - 1 else if negative then (2 ^ 64 - value) % 2 ^ 64 else value

/-- The parts of a text before and after the last `d`. -/
def cutLast (d : UInt8) (s : List UInt8) : Option (List UInt8 × List UInt8) :=
  (cut d s.reverse).map fun p => (p.2.reverse, p.1.reverse)

section

variable (inet : Inet)

def ipToString : IPAddress → List UInt8
  | .inet ip4 => inet.ntop4 ip4
  | .inet6 ip6 => inet.ntop6 ip6
  | .unspec => []

def ipFromString (s : List UInt8) : Option IPAddress :=
  ((inet.pton4 s).map IPAddress.inet).or ((inet.pton6 s).map IPAddress.inet6)

def hostAsURIString (a : SocketAddress) : List UInt8 :=
  if !a.literal && !a.hostname.isEmpty then a.hostname
  else match a.ip with
    | .inet6 _ => '['.toUInt8 :: (ipToString inet a.ip ++ [']'.toUInt8])
    | _ => ipToString inet a.ip

/-- `ToString`.  Its buffer of 1024 bytes, which would cut off a longer text, has room for every
text of an IP address and a port. -/
def toString (a : SocketAddress) : List UInt8 :=
  hostAsURIString inet a ++
    ':'.toUInt8 :: (Decimal.decimal a.port.toNat).map Char.toUInt8

/-- `SetPort` of a port text, then `SetIP` of a host. -/
def parsed (host port : List UInt8) : SocketAddress :=
  { hostname := host
    ip := (ipFromString inet host).getD .unspec
    port := UInt16.ofNat (strtoul port)
    scopeId := 0
    literal := (ipFromString inet host).isSome }

/-- `FromString`: what it returns, and the object. -/
def fromString (s : List UInt8) (a : SocketAddress) : Option (Bool × SocketAddress) :=
  match s with
  | [] => none
  | c :: _ =>
    if c = '['.toUInt8 then
      match cutLast ']'.toUInt8 s with
      | none => some (true, a)
      | some (front, rest) =>
        match cut ':'.toUInt8 rest with
        | some (_, port) => some (true, parsed inet (front.drop 1) port)
        | none => some (false, a)
    else
      match cut ':'.toUInt8 s with
      | none => some (false, a)
      | some (host, port) => some (true, parsed inet host port)

end

/-! ## What is accepted -/

/-- The two forms of a socket address.  The closing bracket is the last one. -/
def HasForm (s host port : List UInt8) : Prop :=
  s = host ++ ':'.toUInt8 :: port ∧ ':'.toUInt8 ∉ host ∧ s.head? ≠ some '['.toUInt8 ∨
    s = '['.toUInt8 :: (host ++ ']'.toUInt8 :: ':'.toUInt8 :: port) ∧ ']'.toUInt8 ∉ port

def Exact (inet : Inet) (s : List UInt8) : Prop :=
  ∀ a out, fromString inet s a = some out →
    (out.1 = true → ∃ host port, HasForm s host port ∧ out.2 = parsed inet host port) ∧
      (out.1 = false → out.2 = a)

theorem cutLast_eq_some_iff {d : UInt8} {s front rest : List UInt8} :
    cutLast d s = some (front, rest) ↔ d ∉ rest ∧ s = front ++ d :: rest := by
  unfold cutLast
  constructor
  · intro h
    obtain ⟨⟨rest', front'⟩, hcut, heq⟩ := Option.map_eq_some_iff.1 h
    cases heq
    obtain ⟨hmem, hs⟩ := cut_eq_some_iff.1 hcut
    refine ⟨by simpa using hmem, ?_⟩
    rw [← reverse_reverse s, hs]
    simp
  · rintro ⟨hmem, rfl⟩
    have hcut : cut d (front ++ d :: rest).reverse = some (rest.reverse, front.reverse) :=
      cut_eq_some_iff.2 ⟨by simpa using hmem, by simp⟩
    rw [hcut]
    simp

section

variable {inet : Inet} {s host port front rest : List UInt8}

theorem exact_of_false (h : ∀ a, fromString inet s a = some (false, a)) : Exact inet s := by
  intro a out hout
  cases (h a).symm.trans hout
  exact ⟨nofun, fun _ => rfl⟩

theorem HasForm.cutLast_eq (h : HasForm s host port) (hs : s.head? = some '['.toUInt8) :
    cutLast ']'.toUInt8 s = some ('['.toUInt8 :: host, ':'.toUInt8 :: port) := by
  rcases h with ⟨-, -, hne⟩ | ⟨rfl, hmem⟩
  · exact absurd hs hne
  · refine cutLast_eq_some_iff.2 ⟨fun h => ?_, rfl⟩
    rcases mem_cons.1 h with heq | hport
    · exact absurd heq (by decide)
    · exact hmem hport

theorem HasForm.fromString_eq (inet : Inet) (h : HasForm s host port) (a : SocketAddress) :
    fromString inet s a = some (true, parsed inet host port) := by
  rcases s with _ | ⟨c, t⟩
  · rcases h with ⟨h, -⟩ | ⟨h, -⟩ <;> simp at h
  · by_cases hc : c = '['.toUInt8
    · rw [fromString, if_pos hc, h.cutLast_eq (congrArg some hc)]
      rfl
    · rcases h with ⟨hs, hmem, -⟩ | ⟨hs, -⟩
      · rw [fromString, if_neg hc, cut_eq_some_iff.2 ⟨hmem, hs⟩]
      · exact absurd (cons.inj hs).1 hc

theorem HasForm.exact (h : HasForm s host port) : Exact inet s := by
  intro a out hout
  cases (h.fromString_eq inet a).symm.trans hout
  exact ⟨fun _ => ⟨host, port, h, rfl⟩, nofun⟩

end

/-- **`FromString` is exact** on a text if and only if a bracket at its start is closed, and a
colon that comes after the last closing bracket comes right after it. -/
theorem fromString_exact_iff (inet : Inet) (s : List UInt8) :
    Exact inet s ↔ (s.head? = some '['.toUInt8 → ∃ front rest, s = front ++ ']'.toUInt8 :: rest ∧
      ']'.toUInt8 ∉ rest ∧ (':'.toUInt8 ∈ rest → rest.head? = some ':'.toUInt8)) := by
  rcases s with _ | ⟨c, t⟩
  · exact iff_of_true nofun nofun
  by_cases hc : c = '['.toUInt8
  · -- a text that is accepted in brackets has been cut at the last of them
    have hcuts (h : Exact inet (c :: t)) {a b : SocketAddress}
        (hrun : fromString inet (c :: t) a = some (true, b)) :
        ∃ host port, cutLast ']'.toUInt8 (c :: t) =
          some ('['.toUInt8 :: host, ':'.toUInt8 :: port) := by
      obtain ⟨host, port, hform, -⟩ := (h a _ hrun).1 rfl
      exact ⟨host, port, hform.cutLast_eq (congrArg some hc)⟩
    cases hlast : cutLast ']'.toUInt8 (c :: t) with
    | none =>
      have hrun : fromString inet (c :: t) {} = some (true, {}) := by
        rw [fromString, if_pos hc, hlast]
      constructor
      · intro h
        obtain ⟨host, port, hsome⟩ := hcuts h hrun
        cases hlast.symm.trans hsome
      · intro h
        obtain ⟨front, rest, hs, hmem, -⟩ := h (congrArg some hc)
        cases hlast.symm.trans (cutLast_eq_some_iff.2 ⟨hmem, hs⟩)
    | some p =>
      obtain ⟨front, rest⟩ := p
      obtain ⟨hmem, hs⟩ := cutLast_eq_some_iff.1 hlast
      cases hcut : cut ':'.toUInt8 rest with
      | none =>
        refine iff_of_true (exact_of_false fun a => ?_) fun _ =>
          ⟨front, rest, hs, hmem, fun h => absurd h (cut_eq_none_iff.1 hcut)⟩
        rw [fromString, if_pos hc, hlast]
        dsimp only
        rw [hcut]
      | some p =>
        have hrun : fromString inet (c :: t) {} = some (true, parsed inet (front.drop 1) p.2) := by
          rw [fromString, if_pos hc, hlast]
          dsimp only
          rw [hcut]
        constructor
        · intro h _
          obtain ⟨host, port, hsome⟩ := hcuts h hrun
          cases hlast.symm.trans hsome
          exact ⟨_, _, hs, hmem, fun _ => rfl⟩
        · intro h
          obtain ⟨front', rest', hs', hmem', hhead⟩ := h (congrArg some hc)
          cases hlast.symm.trans (cutLast_eq_some_iff.2 ⟨hmem', hs'⟩)
          obtain ⟨junk, port⟩ := p
          obtain ⟨hcolon, rfl⟩ := cut_eq_some_iff.1 hcut
          refine HasForm.exact
            (.inr ⟨?_, fun h => hmem (by simp [h])⟩ : HasForm _ (front.drop 1) port)
          have hjunk : junk = [] := by
            cases junk with
            | nil => rfl
            | cons x junk =>
              have hx := Option.some.inj (hhead (by simp))
              exact absurd (hx ▸ mem_cons_self) hcolon
          cases front with
          | nil => exact absurd (hc.symm.trans (cons.inj hs).1) (by decide)
          | cons x front =>
            obtain ⟨rfl, ht⟩ := cons.inj hs
            rw [ht, hc, hjunk]
            rfl
  · refine iff_of_true ?_ fun h => absurd (Option.some.inj h) hc
    cases hcut : cut ':'.toUInt8 (c :: t) with
    | none => exact exact_of_false fun a => by rw [fromString, if_neg hc, hcut]
    | some p =>
      obtain ⟨hmem, hs⟩ := cut_eq_some_iff.1 hcut
      exact HasForm.exact (.inl ⟨hs, hmem, fun h => hc (Option.some.inj h)⟩)

/-- A platform with one IPv4 address. -/
def inetOf (text : String) (ip4 : InAddr) : Inet where
  ntop4 _ := text.toList.map Char.toUInt8
  ntop6 _ := []
  pton4 s := if s = text.toList.map Char.toUInt8 then some ip4 else none
  pton6 _ := none

/-- A bracket that is not closed: the result is true, and nothing is stored. -/
theorem fromString_open_bracket :
    fromString (inetOf "0.0.0.0" #v[0, 0, 0, 0]) ("[::1".toList.map Char.toUInt8) {} =
      some (true, {}) ∧
    ¬∃ host port, HasForm ("[::1".toList.map Char.toUInt8) host port := by
  refine ⟨by decide, fun ⟨host, port, h⟩ => ?_⟩
  cases (show cutLast _ _ = none by decide).symm.trans (h.cutLast_eq rfl)

/-! ## The round trip -/

/-- `inet_pton` inverts `inet_ntop` at an address; an IPv4 text is made of digits and dots, and an
IPv6 text is not taken for one. -/
def InvertsAt (inet : Inet) : IPAddress → Prop
  | .inet ip4 => inet.pton4 (inet.ntop4 ip4) = some ip4 ∧
      ∀ c ∈ inet.ntop4 ip4, isDigit c = true ∨ c = '.'.toUInt8
  | .inet6 ip6 => inet.pton4 (inet.ntop6 ip6) = none ∧ inet.pton6 (inet.ntop6 ip6) = some ip6
  | .unspec => False

theorem isSpace_of_isDigit {c : UInt8} (h : isDigit c = true) : isSpace c = false := by
  have hall : ∀ n < 256, isDigit (UInt8.ofNat n) = true → isSpace (UInt8.ofNat n) = false := by
    decide +kernel
  have hc := hall c.toNat c.toNat_lt
  rw [UInt8.ofNat_toNat] at hc
  exact hc h

theorem isDigit_digitChar {n : Nat} (h : n < 10) :
    isDigit (Nat.digitChar n).toUInt8 = true ∧
      ((Nat.digitChar n).toUInt8 - '0'.toUInt8).toNat = n := by
  revert n
  decide

theorem decimal_digits (n : Nat) : (∀ c ∈ (Decimal.decimal n).map Char.toUInt8, isDigit c = true) ∧
    digitsValue ((Decimal.decimal n).map Char.toUInt8) = n := by
  induction n using Nat.strongRecOn with
  | ind n ih =>
    rcases Nat.lt_or_ge n 10 with hlt | hge
    · rw [Decimal.decimal, Nat.toDigits_of_lt_base hlt]
      simpa [digitsValue] using isDigit_digitChar hlt
    · have hrest := ih (n / 10) (by omega)
      have hlast := isDigit_digitChar (Nat.mod_lt n (show 0 < 10 by decide))
      rw [Decimal.decimal, Nat.toDigits_of_base_le (by decide) hge, map_append]
      rw [Decimal.decimal] at hrest
      refine ⟨fun c hc => ?_, ?_⟩
      · rcases mem_append.1 hc with hc | hc
        · exact hrest.1 c hc
        · simp at hc
          exact hc ▸ hlast.1
      · rw [digitsValue, foldl_append, ← digitsValue]
        simp
        omega

theorem strtoul_decimal (n : UInt16) :
    strtoul ((Decimal.decimal n.toNat).map Char.toUInt8) = n.toNat := by
  obtain ⟨hdigits, hvalue⟩ := decimal_digits n.toNat
  have hlt := n.toNat_lt
  generalize (Decimal.decimal n.toNat).map Char.toUInt8 = s at *
  have htake : s.takeWhile isDigit = s := by
    have hall := @takeWhile_append_of_pos _ _ s [] hdigits
    rwa [takeWhile_nil, append_nil] at hall
  have hhead {x : UInt8} (hx : isDigit x = false) : s.head? ≠ some x := fun h => by
    rw [hdigits x (mem_of_mem_head? h)] at hx
    cases hx
  have hspace : s.dropWhile isSpace = s := by
    cases s with
    | nil => rfl
    | cons c s =>
      refine dropWhile_cons_of_neg ?_
      rw [isSpace_of_isDigit (hdigits c mem_cons_self)]
      exact Bool.false_ne_true
  have hminus := hhead (show isDigit '-'.toUInt8 = false by decide)
  have hplus := hhead (show isDigit '+'.toUInt8 = false by decide)
  unfold strtoul
  simp only [hspace, hminus, hplus, or_self, if_false, htake, hvalue]
  rw [if_neg (by omega)]

theorem toString_hasForm {inet : Inet} {a : SocketAddress} (hinv : InvertsAt inet a.ip)
    (hname : a.hostname = [] ∨ a.literal = true) :
    HasForm (toString inet a) (ipToString inet a.ip)
      ((Decimal.decimal a.port.toNat).map Char.toUInt8) := by
  have hno {x : UInt8} (hx : isDigit x = false) :
      x ∉ (Decimal.decimal a.port.toNat).map Char.toUInt8 := fun h => by
    rw [(decimal_digits _).1 x h] at hx
    cases hx
  have hhost : (!a.literal && !a.hostname.isEmpty) = false := by
    rcases hname with h | h <;> simp [h]
  unfold toString hostAsURIString
  rw [hhost]
  cases hip : a.ip with
  | unspec =>
    rw [hip] at hinv
    exact hinv.elim
  | inet ip4 =>
    rw [hip] at hinv
    have hno {x : UInt8} (hx : isDigit x = false ∧ x ≠ '.'.toUInt8) : x ∉ inet.ntop4 ip4 :=
        fun h => by
      rcases hinv.2 x h with h | h
      · rw [hx.1] at h
        cases h
      · exact hx.2 h
    refine .inl ⟨rfl, hno (by decide), fun h => ?_⟩
    have hbracket := hno (by decide : isDigit '['.toUInt8 = false ∧ '['.toUInt8 ≠ '.'.toUInt8)
    rw [ipToString] at h
    cases htext : inet.ntop4 ip4 with
    | nil =>
      rw [htext] at h
      exact absurd (Option.some.inj h : ':'.toUInt8 = '['.toUInt8) (by decide)
    | cons c text =>
      rw [htext] at h hbracket
      exact hbracket (Option.some.inj h ▸ mem_cons_self)
  | inet6 ip6 =>
    exact .inr ⟨by simp, hno (by decide)⟩

/-- **Socket addresses survive their text** if and only if they are not the ANY address, or the
hostname is the text of that address. -/
theorem fromString_toString_iff (inet : Inet) (a before : SocketAddress)
    (hinv : InvertsAt inet a.ip) (hname : a.hostname = [] ∨ a.literal = true) :
    (∃ b, fromString inet (toString inet a) before = some (true, b) ∧ b.opEq a = true) ↔
      (ipIsAny a.ip = true → a.hostname = ipToString inet a.ip) := by
  have hrun := (toString_hasForm hinv hname).fromString_eq inet before
  have hip : ipFromString inet (ipToString inet a.ip) = some a.ip ∧ ipIsUnspec a.ip = false := by
    cases hip : a.ip <;> rw [hip] at hinv
    · exact hinv.elim
    · exact ⟨by simp [ipFromString, ipToString, hinv.1], rfl⟩
    · exact ⟨by simp [ipFromString, ipToString, hinv.1, hinv.2], rfl⟩
  have hkey : (parsed inet (ipToString inet a.ip)
      ((Decimal.decimal a.port.toNat).map Char.toUInt8)).opEq a = true ↔
      (ipIsAny a.ip = true → a.hostname = ipToString inet a.ip) := by
    rw [SocketAddress.opEq_iff, SocketAddress.key, SocketAddress.key, parsed, strtoul_decimal,
      hip.1]
    cases hany : ipIsAny a.ip <;> simp [SocketAddress.countedName, hip.2, hany, eq_comm]
  rw [hrun, ← hkey]
  constructor
  · rintro ⟨b, hb, heq⟩
    cases hb
    exact heq
  · exact fun h => ⟨_, rfl, h⟩

theorem fromString_toString_example : ∃ b,
    fromString (inetOf "1.2.3.4" #v[1, 2, 3, 4])
      (toString (inetOf "1.2.3.4" #v[1, 2, 3, 4]) { ip := .inet #v[1, 2, 3, 4], port := 80 }) {} =
        some (true, b) ∧ b.opEq { ip := .inet #v[1, 2, 3, 4], port := 80 } = true :=
  (fromString_toString_iff _ { ip := .inet #v[1, 2, 3, 4], port := 80 } {}
    ⟨by decide, by decide +kernel⟩ (.inl rfl)).2 (by decide)

/-- The text of the ANY address is stored as its hostname, and hostnames count there. -/
theorem fromString_toString_any :
    InvertsAt (inetOf "0.0.0.0" #v[0, 0, 0, 0]) (.inet #v[0, 0, 0, 0]) ∧
    ¬∃ b, fromString (inetOf "0.0.0.0" #v[0, 0, 0, 0])
      (toString (inetOf "0.0.0.0" #v[0, 0, 0, 0]) { ip := .inet #v[0, 0, 0, 0], port := 80 }) {} =
        some (true, b) ∧ b.opEq { ip := .inet #v[0, 0, 0, 0], port := 80 } = true := by
  refine ⟨⟨by decide, by decide +kernel⟩, ?_⟩
  rintro ⟨b, hb, heq⟩
  cases hb
  revert heq
  decide

end WebrtcCore.Ports.SocketAddressText
