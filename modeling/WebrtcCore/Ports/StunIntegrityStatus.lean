import WebrtcCore.Ports.StunIntegrity
import WebrtcCore.Verified.Simulation

/-!
# The integrity status of a STUN message (`api/transport/stun.{h,cc}`)

A `StunMessage` remembers the outcome of the last signing or verification in
`integrity_`, and the password in `password_`.  `IntegrityTruth` is what
`IntegrityOk()` should mean: the message holds an integrity attribute whose
value is the digest of the message up to it, either of the attributes as they
would be sent or of the buffer last read.

Signing and verifying establish this; reading a new packet, removing
attributes and clearing them change the contents and leave the status alone.
-/

namespace WebrtcCore.Ports.Stun

open Verified Cursor Simulation Ports.ByteBuffer List StunMessage

/-! ## The operations -/

/-- `ValidateMessageIntegrity(password)`, on the buffer kept by `Read`. -/
def StunMessage.validateMessageIntegrity (hmac : Hmac) (m : StunMessage)
    (password : List UInt8) : IntegrityStatus × StunMessage :=
  let integrity :=
    if (m.getAttribute stunAttrMessageIntegrity).isSome then
      if validateMessageIntegrityOfType hmac stunAttrMessageIntegrity
          kStunMessageIntegritySize m.buffer password then
        IntegrityStatus.integrityOk
      else IntegrityStatus.integrityBad
    else if (m.getAttribute stunAttrGoogMessageIntegrity32).isSome then
      if validateMessageIntegrityOfType hmac stunAttrGoogMessageIntegrity32
          kStunMessageIntegrity32Size m.buffer password then
        IntegrityStatus.integrityOk
      else IntegrityStatus.integrityBad
    else IntegrityStatus.noIntegrity
  (integrity, { m with password := password, integrity := integrity })

def StunMessage.integrityOk (m : StunMessage) : Bool := m.integrity = .integrityOk

inductive Op
  | read (bytes : List UInt8)
  | validateMessageIntegrity (password : List UInt8)
  | addMessageIntegrity (password : List UInt8)
  | addMessageIntegrity32 (password : List UInt8)
  | addAttribute (attr : StunAttribute)
  | removeAttribute (type : UInt16)
  | clearAttributes

/-- What an operation returns to its caller. -/
inductive Returned
  | unit
  | flag (value : Bool)
  | status (value : IntegrityStatus)
  | attribute (value : Option StunAttribute)

/-- One call on a message.  None of them can fail to return. -/
def step (hmac : Hmac) (m : StunMessage) : Op → Option (Returned × StunMessage)
  | .read bytes =>
    let r := m.read bytes
    some (.flag r.1.isSome, r.2)
  | .validateMessageIntegrity password =>
    let r := m.validateMessageIntegrity hmac password
    some (.status r.1, r.2)
  | .addMessageIntegrity password =>
    let r := m.addMessageIntegrity hmac password
    some (.flag r.1, r.2)
  | .addMessageIntegrity32 password =>
    let r := m.addMessageIntegrity32 hmac password
    some (.flag r.1, r.2)
  | .addAttribute attr => some (.unit, m.addAttribute attr)
  | .removeAttribute type =>
    let r := m.removeAttribute type
    some (.attribute r.1, r.2)
  | .clearAttributes => some (.unit, m.clearAttributes)

/-! ### What an operation leaves alone -/

theorem readAttributes_keeps_integrity (rest fuel : Nat) :
    Attempt.Keeps (fun s : StunMessage × ByteBufferReader => s.1.integrity)
      (readAttributes rest fuel) := by
  induction fuel with
  | zero => exact .fail
  | succ fuel ih =>
    refine .bind .get fun s => ?_
    split
    · refine .bind (.onSnd _) fun entry => ?_
      refine .bind (.modify fun _ => rfl) fun _ => ?_
      exact .bind ih fun _ => .pure _
    · exact .pure _

theorem TransactionId.check_keeps {σ γ : Type} {g : σ → γ}
    (bytes : List UInt8) : Attempt.Keeps g (TransactionId.check bytes) := by
  unfold TransactionId.check
  split
  · exact .pure _
  · exact .fail

theorem readHeader_keeps_integrity :
    Attempt.Keeps (fun s : StunMessage × ByteBufferReader => s.1.integrity)
      readHeader := by
  refine .bind (.modify fun _ => rfl) fun _ => ?_
  refine .bind (.onSnd _) fun type => ?_
  refine .bind (.modify fun _ => rfl) fun _ => ?_
  refine .bind (.guard _) fun _ => ?_
  refine .bind (.onSnd _) fun length => ?_
  refine .bind (.modify fun _ => rfl) fun _ => ?_
  refine .bind (.onSnd _) fun magicCookie => ?_
  refine .bind (.onSnd _) fun idBytes => ?_
  exact .bind (TransactionId.check_keeps _) fun _ => .modify fun _ => rfl

theorem StunMessage.read_integrity (m : StunMessage) (bytes : List UInt8) :
    (m.read bytes).2.integrity = m.integrity := by
  have hkeeps : Attempt.Keeps (fun s : StunMessage × ByteBufferReader => s.1.integrity)
      readM := by
    refine .bind readHeader_keeps_integrity fun _ => ?_
    refine .bind .get fun s => ?_
    refine .bind (.guard _) fun _ => ?_
    exact .bind (.modify fun _ => rfl) fun _ => readAttributes_keeps_integrity _ _
  exact hkeeps (m, Cursor.start bytes)

variable {type : UInt16} {hmac : Hmac} {m : StunMessage} {password : List UInt8}

theorem StunMessage.removeLast_eq_none_iff {attrs : List StunAttribute} :
    removeLast type attrs = none ↔ ∀ attr ∈ attrs, attr.type ≠ type := by
  induction attrs with
  | nil => simp [removeLast]
  | cons head attrs ih =>
    rw [forall_mem_cons, ← ih, removeLast]
    cases removeLast type attrs with
    | none => simp
    | some r => simp

theorem StunMessage.removeLast_append {behind : List StunAttribute} (before : List StunAttribute)
    (h : ∃ attr ∈ behind, attr.type = type) :
    ∃ removed behind', removeLast type (before ++ behind) = some (removed, before ++ behind') := by
  induction before with
  | nil =>
    cases hlast : removeLast type behind with
    | none =>
      obtain ⟨attr, hmem, htype⟩ := h
      exact absurd htype (removeLast_eq_none_iff.1 hlast attr hmem)
    | some r => exact ⟨r.1, r.2, hlast⟩
  | cons attr before ih =>
    obtain ⟨removed, behind', hlast⟩ := ih
    exact ⟨removed, behind', by rw [cons_append, removeLast, hlast]; rfl⟩

/-! ## What the status should mean -/

def IntegrityKind.Signs (kind : IntegrityKind) (hmac : Hmac) (m : StunMessage)
    (before : List StunAttribute) (value : List UInt8) : Prop :=
  (∃ w, writeAttributes m.transactionId before = some w ∧
    value = kind.digest hmac m.password m
      (UInt16.ofNat (w.length + (4 + kind.size))) w) ∨
  (∃ pos, findIntegrity m.buffer kind.type kind.size m.buffer.length
      kStunHeaderSize = some pos ∧
    value = (m.buffer.drop (pos + kStunAttributeHeaderSize)).take kind.size ∧
    value = (hmac.compute m.password
      (hashedPrefix m.buffer pos kind.size)).take kind.size)

/-- The message contains an integrity attribute with the right value. -/
def Signed (hmac : Hmac) (m : StunMessage) : Prop :=
  ∃ kind before value rest,
    m.attrs = before ++ IntegrityKind.signature kind value :: rest ∧
      kind.Signs hmac m before value

def IntegrityTruth (hmac : Hmac) (m : StunMessage) : Prop := m.integrityOk → Signed hmac m

/-! ## Steps that keep it -/

/-- The attribute that `RemoveAttribute` takes out stands behind every
integrity attribute, or there is none of the type. -/
def RemovesBehindIntegrity (type : UInt16) (attrs : List StunAttribute) : Prop :=
  (∀ attr ∈ attrs, attr.type ≠ type) ∨
  ∃ before behind, attrs = before ++ behind ∧
    (∀ attr ∈ behind, ∀ kind : IntegrityKind, attr.type ≠ kind.type) ∧
    ∃ attr ∈ behind, attr.type = type

/-- The attribute that `ValidateMessageIntegrity` looks for. -/
def StunMessage.integrityKind (m : StunMessage) : IntegrityKind :=
  if (m.getAttribute stunAttrMessageIntegrity).isSome then .messageIntegrity
  else .messageIntegrity32

/-- The steps after which the status still tells the truth. -/
def StepOk (m : StunMessage) : Op → Prop
  | .read _ => ¬m.integrityOk
  | .clearAttributes => ¬m.integrityOk
  | .removeAttribute type =>
    m.integrityOk → RemovesBehindIntegrity type m.attrs
  | .addAttribute _ => True
  | .addMessageIntegrity _ =>
    ∀ w, writeAttributes m.transactionId m.attrs = some w →
      m.length = UInt16.ofNat w.length
  | .addMessageIntegrity32 _ =>
    ∀ w, writeAttributes m.transactionId m.attrs = some w →
      m.length = UInt16.ofNat w.length
  | .validateMessageIntegrity _ =>
    ∀ pos, findIntegrity m.buffer m.integrityKind.type m.integrityKind.size
        m.buffer.length kStunHeaderSize = some pos →
      m.getAttribute m.integrityKind.type = some (m.integrityKind.signature
        ((m.buffer.drop (pos + kStunAttributeHeaderSize)).take
          m.integrityKind.size))

/-! ### The signed attribute stays -/

theorem Signed.of_front {m' : StunMessage} (h : Signed hmac m)
    (hsame : m' = { m with
      attrs := m'.attrs, length := m'.length, integrity := m'.integrity })
    (hfront : ∀ (kind : IntegrityKind) before value rest,
      m.attrs = before ++ kind.signature value :: rest →
        ∃ rest', m'.attrs = before ++ kind.signature value :: rest') :
    Signed hmac m' := by
  obtain ⟨kind, before, value, rest, hattrs, hsigns⟩ := h
  obtain ⟨rest', hattrs'⟩ := hfront kind before value rest hattrs
  refine ⟨kind, before, value, rest', hattrs', ?_⟩
  rw [hsame]
  exact hsigns

theorem Signed.addAttribute (h : Signed hmac m) (attr : StunAttribute) :
    Signed hmac (m.addAttribute attr) := by
  refine h.of_front rfl fun kind before value rest hattrs => ?_
  refine ⟨rest ++ [attr], ?_⟩
  rw [StunMessage.addAttribute, hattrs]
  simp

theorem Signed.removeAttribute (h : Signed hmac m) (hbehind : RemovesBehindIntegrity type m.attrs) :
    Signed hmac (m.removeAttribute type).2 := by
  rcases hbehind with hnone | ⟨before, behind, hattrs, hplain, htype⟩
  · rw [StunMessage.removeAttribute, StunMessage.removeLast_eq_none_iff.2 hnone]
    exact h
  · obtain ⟨removed, behind', hlast⟩ := removeLast_append before htype
    rw [StunMessage.removeAttribute, hattrs, hlast]
    refine h.of_front rfl fun kind front value rest hsplit => ?_
    -- The signed attribute is not in `behind`, so it is in `before`.
    rw [hattrs] at hsplit
    rcases append_eq_append_iff.1 hsplit with
      ⟨extra, hfront, hrest⟩ | ⟨extra, hbefore, hrest⟩
    · have hmem : kind.signature value ∈ behind := by
        rw [hrest]
        exact mem_append_right _ mem_cons_self
      exact absurd rfl (hplain _ hmem kind)
    · cases extra with
      | nil =>
        have hmem : kind.signature value ∈ behind := by
          rw [← nil_append behind, ← hrest]
          exact mem_cons_self
        exact absurd rfl (hplain _ hmem kind)
      | cons attr extra =>
        rw [cons_append, cons.injEq] at hrest
        refine ⟨extra ++ behind', ?_⟩
        rw [hbefore, ← hrest.1]
        simp

/-! ### Signing and verifying -/

theorem IntegrityKind.add_eq_false {kind : IntegrityKind} {m₁ : StunMessage}
    (h : kind.add hmac m password = (false, m₁)) :
    m₁ = m.addAttribute (kind.signature (List.replicate kind.size 0x30)) := by
  rw [kind.add_eq, addMessageIntegrityOfType] at h
  split at h
  · exact (Prod.mk.inj h).2.symm
  · exact absurd (Prod.mk.inj h).1 (by decide)

theorem IntegrityTruth.add (h : IntegrityTruth hmac m) (kind : IntegrityKind)
    (password : List UInt8)
    (hlength : ∀ w, writeAttributes m.transactionId m.attrs = some w → m.length = UInt16.ofNat
      w.length) :
    IntegrityTruth hmac (kind.add hmac m password).2 := by
  rcases hadd : kind.add hmac m password with ⟨_ | _, m₁⟩
  · intro hok
    rw [IntegrityKind.add_eq_false hadd] at hok ⊢
    exact (h hok).addAttribute _
  · intro hok
    obtain ⟨w, hw, rfl⟩ := IntegrityKind.add_eq_true_iff.1 hadd
    refine ⟨kind, m.attrs, _, [], rfl, .inl ⟨w, hw, ?_⟩⟩
    rw [hlength w hw, ← UInt16.ofNat_add]
    rfl

theorem validateMessageIntegrityOfType_eq_true {miAttrType : UInt16} {miAttrSize : Nat}
    {data : List UInt8}
    (h : validateMessageIntegrityOfType hmac miAttrType miAttrSize data password = true) :
    ∃ pos, findIntegrity data miAttrType miAttrSize data.length kStunHeaderSize = some pos ∧
      (data.drop (pos + kStunAttributeHeaderSize)).take miAttrSize =
        (hmac.compute password (hashedPrefix data pos miAttrSize)).take
          miAttrSize := by
  unfold validateMessageIntegrityOfType at h
  split at h
  · cases h
  split at h
  · cases h
  split at h
  case h_1 => cases h
  case h_2 pos hfind => exact ⟨pos, hfind, of_decide_eq_true h⟩

theorem StunMessage.validateMessageIntegrity_ok
    (h : (m.validateMessageIntegrity hmac password).2.integrityOk) :
    validateMessageIntegrityOfType hmac m.integrityKind.type
      m.integrityKind.size m.buffer password = true := by
  unfold integrityOk validateMessageIntegrity at h
  have hstatus := of_decide_eq_true h
  unfold integrityKind
  split at hstatus
  case isTrue hfirst =>
    rw [if_pos hfirst]
    split at hstatus
    case isTrue hvalid => exact hvalid
    case isFalse => cases hstatus
  case isFalse hfirst =>
    rw [if_neg hfirst]
    split at hstatus
    case isTrue =>
      split at hstatus
      case isTrue hvalid => exact hvalid
      case isFalse => cases hstatus
    case isFalse => cases hstatus

theorem Signed.of_validate (hok : (m.validateMessageIntegrity hmac password).2.integrityOk)
    (hstored : StepOk m (.validateMessageIntegrity password)) :
    Signed hmac (m.validateMessageIntegrity hmac password).2 := by
  obtain ⟨pos, hfind, hvalue⟩ := validateMessageIntegrityOfType_eq_true
    (validateMessageIntegrity_ok hok)
  have hmem := mem_of_find?_eq_some (hstored pos hfind)
  obtain ⟨before, rest, hattrs⟩ := append_of_mem hmem
  exact ⟨m.integrityKind, before, _, rest, hattrs, .inr ⟨pos, hfind, rfl, hvalue⟩⟩

/-! ## Runs -/

theorem integrityTruth_step (m : StunMessage) (op : Op) (returned : Returned) (m' : StunMessage)
    (h : IntegrityTruth hmac m) (hop : StepOk m op) (hstep : step hmac m op = some (returned, m')) :
    IntegrityTruth hmac m' := by
  cases op with
  | read bytes =>
    cases hstep
    intro hok
    unfold integrityOk at hok
    rw [m.read_integrity bytes] at hok
    exact absurd hok hop
  | validateMessageIntegrity password =>
    cases hstep
    exact fun hok => Signed.of_validate hok hop
  | addMessageIntegrity password =>
    cases hstep
    exact h.add .messageIntegrity password hop
  | addMessageIntegrity32 password =>
    cases hstep
    exact h.add .messageIntegrity32 password hop
  | addAttribute attr =>
    cases hstep
    exact fun hok => (h hok).addAttribute attr
  | removeAttribute type =>
    cases hstep
    intro hok
    have hbefore : m.integrityOk := by
      unfold StunMessage.removeAttribute at hok
      split at hok <;> exact hok
    exact (h hbefore).removeAttribute (hop hbefore)
  | clearAttributes =>
    cases hstep
    exact fun hok => absurd hok hop

/-- **The integrity status tells the truth** at the end of every run, from a
message that was not signed or verified yet, whose operations all meet their
condition in the state they start from.  An initial part of such a run is one
too. -/
theorem integrityTruth_run (hmac : Hmac) (m₀ m : StunMessage) (ops : List Op)
    (returned : List Returned) (hnew : m₀.integrity = .notSet)
    (hops : Along (step hmac) StepOk m₀ ops) (hrun : runM (step hmac) m₀ ops = some (returned, m)) :
    IntegrityTruth hmac m := by
  refine runM_invariant integrityTruth_step ops m₀ m returned ?_ hops hrun
  intro hok
  unfold integrityOk at hok
  rw [hnew] at hok
  cases hok

/-- Sign a message, append a fingerprint and take it off again. -/
theorem integrityTruth_run_fingerprint :
    ∃ returned m, runM (step checksumHmac) usernameRequest
        [.addMessageIntegrity [112, 119], .addAttribute ⟨stunAttrFingerprint, .uint32 7⟩,
          .removeAttribute stunAttrFingerprint] = some (returned, m) ∧
      m.integrityOk ∧ IntegrityTruth checksumHmac m := by
  let signed := (usernameRequest.addMessageIntegrity checksumHmac [112, 119]).2
  let fingerprint : StunAttribute := ⟨stunAttrFingerprint, .uint32 7⟩
  have hlength : ∀ w ∈ writeAttributes usernameRequest.transactionId
      usernameRequest.attrs, usernameRequest.length = UInt16.ofNat w.length := by
    decide +kernel
  have hbehind : RemovesBehindIntegrity stunAttrFingerprint
      (signed.addAttribute fingerprint).attrs := by
    refine .inr ⟨signed.attrs, [fingerprint], rfl, ?_, fingerprint, by simp, rfl⟩
    intro attr hmem kind
    rw [mem_singleton.1 hmem]
    cases kind <;> decide
  have hops : Along (step checksumHmac) StepOk usernameRequest
      [.addMessageIntegrity [112, 119], .addAttribute fingerprint,
        .removeAttribute stunAttrFingerprint] :=
    ⟨hlength, trivial, fun _ => hbehind, trivial⟩
  exact ⟨_, _, rfl, by decide +kernel,
    integrityTruth_run checksumHmac usernameRequest _ _ _ rfl hops rfl⟩

/-- Signing a message and removing the signature leaves the status. -/
theorem integrityOk_after_removal :
    ∃ returned m, runM (step checksumHmac) usernameRequest
        [.addMessageIntegrity [112, 119],
          .removeAttribute stunAttrMessageIntegrity] = some (returned, m) ∧
      ¬IntegrityTruth checksumHmac m := by
  let m := ((usernameRequest.addMessageIntegrity checksumHmac
    [112, 119]).2.removeAttribute stunAttrMessageIntegrity).2
  have hnone : ∀ attr ∈ m.attrs, attr.type ≠ stunAttrMessageIntegrity ∧
      attr.type ≠ stunAttrGoogMessageIntegrity32 := by
    decide +kernel
  refine ⟨_, m, rfl, fun htruth => ?_⟩
  obtain ⟨kind, before, value, rest, hattrs, -⟩ := htruth (by decide +kernel)
  have hmem : kind.signature value ∈ m.attrs := by
    rw [hattrs]
    exact mem_append_right _ mem_cons_self
  cases kind with
  | messageIntegrity => exact (hnone _ hmem).1 rfl
  | messageIntegrity32 => exact (hnone _ hmem).2 rfl

end WebrtcCore.Ports.Stun
