import Mathlib.Data.List.Basic

/-! `dpa-guard`: the decision about an outbound call to a foundation model, given the data
processing agreement of the firm. -/
namespace Batiste
namespace DpaGuard

inductive DataRegion
  | eu | us | uk | br | other
  deriving DecidableEq, Repr

def DataRegion.text : DataRegion → String
  | .eu => "eu"
  | .us => "us"
  | .uk => "uk"
  | .br => "br"
  | .other => "other"

inductive DataCategory
  | nonPersonal | contact | identifier | financial | health | biometric | politicalOpinion
  | religiousBelief | sexLife | sexualOrientation | racialOrigin | tradeUnion | genetic
  | criminal | location
  deriving DecidableEq, Repr

/-- GDPR Art. 9 special categories — extra legal basis required. -/
def SPECIAL_CATEGORIES : List DataCategory :=
  [.health, .biometric, .politicalOpinion, .religiousBelief, .sexLife, .sexualOrientation,
    .racialOrigin, .tradeUnion, .genetic]

inductive LegalBasis
  | consent | contract | legalObligation | vitalInterests | publicTask | legitimateInterests
  | art9ExplicitConsent | art9Employment | art9Vital | art9PublicInterest
  deriving DecidableEq, Repr

def LegalBasis.text : LegalBasis → String
  | .consent => "consent"
  | .contract => "contract"
  | .legalObligation => "legal-obligation"
  | .vitalInterests => "vital-interests"
  | .publicTask => "public-task"
  | .legitimateInterests => "legitimate-interests"
  | .art9ExplicitConsent => "art9-explicit-consent"
  | .art9Employment => "art9-employment"
  | .art9Vital => "art9-vital"
  | .art9PublicInterest => "art9-public-interest"

/-- `basis.startsWith('art9-')` -/
def LegalBasis.isArt9 (basis : LegalBasis) : Bool := "art9-".toList.isPrefixOf basis.text.toList

structure SubProcessor where
  name : String
  region : DataRegion
  role : String
  deriving DecidableEq, Repr

structure DpaProfile where
  controller : String
  processor : String
  dpa_version : String
  signed_on : String
  allowed_regions : List DataRegion
  preferred_region : DataRegion
  sub_processors : List SubProcessor := []
  retention_days : ℕ := 30
  special_categories_basis : Option LegalBasis := none
  deriving DecidableEq, Repr

/-- The profiles that `DpaProfileSchema` accepts. -/
structure DpaProfileSchema (profile : DpaProfile) : Prop where
  controller : profile.controller ≠ ""
  processor : profile.processor ≠ ""
  dpa_version : profile.dpa_version ≠ ""
  allowed_regions : profile.allowed_regions ≠ []
  sub_processors : ∀ sp ∈ profile.sub_processors, sp.name ≠ "" ∧ sp.role ≠ ""
  retention_days : 0 < profile.retention_days

structure OutboundCall where
  request_id : String
  provider : String
  requested_region : DataRegion
  payload : String
  detected_categories : List DataCategory
  legal_basis : LegalBasis
  data_subjects : List String
  deriving DecidableEq, Repr

structure RopaEntry where
  id : String
  controller : String
  processor : String
  purpose : String
  legal_basis : LegalBasis
  data_categories : List DataCategory
  data_subjects : List String
  recipients : List String
  transfer_region : DataRegion
  retention_days : ℕ
  timestamp : String
  payload_hash : String
  deriving DecidableEq, Repr

inductive GuardDecision
  | allow (routedRegion : DataRegion) (redactedPayload : String) (ropaEntry : RopaEntry)
  | block (rule message : String)
  deriving DecidableEq, Repr

/-- The ids and times are those that the generator and the clock of the call give. -/
structure Options where
  redact : String → List DataCategory → String
  hash : String → String
  ropaId : String
  now : String
  purpose : String
  recipients : Option (List String) := none

def hasSpecial (call : OutboundCall) : Bool :=
  call.detected_categories.any fun c => decide (c ∈ SPECIAL_CATEGORIES)

def ropaEntry (call : OutboundCall) (profile : DpaProfile) (options : Options) : RopaEntry where
  id := options.ropaId
  controller := profile.controller
  processor := profile.processor
  purpose := options.purpose
  legal_basis := call.legal_basis
  data_categories := call.detected_categories
  data_subjects := call.data_subjects
  recipients := options.recipients.getD [profile.processor]
  transfer_region := call.requested_region
  retention_days := profile.retention_days
  timestamp := options.now
  payload_hash := options.hash (options.redact call.payload call.detected_categories)

def decideOutbound (call : OutboundCall) (profile : DpaProfile) (options : Options) :
    GuardDecision :=
  if call.requested_region ∉ profile.allowed_regions then
    .block "residency" ("requested region \"" ++ call.requested_region.text ++
      "\" is not in the DPA's allowed_regions (" ++
      ", ".intercalate (profile.allowed_regions.map DataRegion.text) ++ ")")
  else if hasSpecial call &&
      !(call.legal_basis.isArt9 && profile.special_categories_basis.isSome) then
    .block "special-categories"
      ("special-category data (GDPR Art. 9) present and no Art. 9 legal basis declared on the " ++
        "DPA profile")
  else if profile.sub_processors ≠ [] ∧
      (profile.sub_processors.filter fun sp => sp.region = call.requested_region) = [] then
    .block "sub-processor-allowlist" ("no sub-processor is allowlisted for region \"" ++
      call.requested_region.text ++
      "\"; declare one in the DPA profile or change requested_region")
  else .allow call.requested_region (options.redact call.payload call.detected_categories)
    (ropaEntry call profile options)

/-! ## What is allowed -/

variable {call : OutboundCall} {profile : DpaProfile} {options : Options}

/-- The checks that the code makes. -/
structure Passes (call : OutboundCall) (profile : DpaProfile) : Prop where
  region : call.requested_region ∈ profile.allowed_regions
  special : hasSpecial call = true →
    call.legal_basis.isArt9 = true ∧ profile.special_categories_basis.isSome = true
  listed : profile.sub_processors = [] ∨
    ∃ sp ∈ profile.sub_processors, sp.region = call.requested_region

/-- The special-category check blocks exactly the calls that do not meet it. -/
theorem special_blocks (special art9 declared : Bool) :
    (special && !(art9 && declared)) = true ↔
      ¬ (special = true → art9 = true ∧ declared = true) := by
  cases special <;> cases art9 <;> cases declared <;> simp

theorem decideOutbound_allow (call : OutboundCall) (profile : DpaProfile) (options : Options) :
    (Passes call profile ∧ decideOutbound call profile options =
        .allow call.requested_region (options.redact call.payload call.detected_categories)
          (ropaEntry call profile options)) ∨
      (¬ Passes call profile ∧
        ∃ rule message, decideOutbound call profile options = .block rule message) := by
  unfold decideOutbound
  by_cases hregion : call.requested_region ∈ profile.allowed_regions
  case neg =>
    rw [if_pos hregion]
    exact .inr ⟨fun h => hregion h.region, _, _, rfl⟩
  rw [if_neg (not_not.mpr hregion)]
  by_cases hspecial : hasSpecial call = true →
      call.legal_basis.isArt9 = true ∧ profile.special_categories_basis.isSome = true
  case neg =>
    rw [if_pos ((special_blocks _ _ _).mpr hspecial)]
    exact .inr ⟨fun h => hspecial h.special, _, _, rfl⟩
  rw [if_neg fun h => (special_blocks _ _ _).mp h hspecial]
  by_cases hlisted : profile.sub_processors = [] ∨
      ∃ sp ∈ profile.sub_processors, sp.region = call.requested_region
  case neg =>
    push Not at hlisted
    have hnone : (profile.sub_processors.filter fun sp => sp.region = call.requested_region) = [] :=
      List.filter_eq_nil_iff.mpr fun sp hsp => by simpa using hlisted.2 sp hsp
    rw [if_pos ⟨hlisted.1, hnone⟩]
    refine .inr ⟨fun h => ?_, _, _, rfl⟩
    rcases h.listed with hnone | ⟨sp, hsp, hsame⟩
    · exact hlisted.1 hnone
    · exact hlisted.2 sp hsp hsame
  rw [if_neg]
  · exact .inl ⟨⟨hregion, hspecial, hlisted⟩, rfl⟩
  · rintro ⟨hsome, hnone⟩
    rcases hlisted with hempty | ⟨sp, hsp, hsame⟩
    · exact hsome hempty
    · simpa [hsame] using List.filter_eq_nil_iff.mp hnone sp hsp

/-- The profile's processor, or a sub-processor that it lists for the region of the call. -/
def Declared (call : OutboundCall) (profile : DpaProfile) (recipient : String) : Prop :=
  recipient = profile.processor ∨
    ∃ sp ∈ profile.sub_processors, sp.name = recipient ∧ sp.region = call.requested_region

/-- What an allowed call has to meet. -/
structure Compliant (call : OutboundCall) (profile : DpaProfile) (entry : RopaEntry) : Prop where
  region : call.requested_region ∈ profile.allowed_regions
  special : hasSpecial call = true → call.legal_basis.isArt9 = true ∧
    ∃ basis, profile.special_categories_basis = some basis ∧ basis.isArt9 = true
  recipients : ∀ recipient ∈ entry.recipients, Declared call profile recipient

/-- The guard only allows compliant calls, exactly when a call that passes its checks has an
Art. 9 basis on the profile if its data is special, and names declared recipients only. -/
theorem decideOutbound_compliant_iff (call : OutboundCall) (profile : DpaProfile)
    (options : Options) :
    (∀ region payload entry, decideOutbound call profile options = .allow region payload entry →
        Compliant call profile entry) ↔
      (Passes call profile →
        (hasSpecial call = true → ∀ basis, profile.special_categories_basis = some basis →
          basis.isArt9 = true) ∧
        ∀ recipients, options.recipients = some recipients →
          ∀ recipient ∈ recipients, Declared call profile recipient) := by
  rcases decideOutbound_allow call profile options with ⟨hpasses, hallow⟩ | ⟨hpasses, _, _, hblock⟩
  · constructor
    · intro h _
      have hcompliant := h _ _ _ hallow
      refine ⟨fun hs basis hbasis => ?_, fun recipients hr recipient hmem => ?_⟩
      · obtain ⟨-, declared, hdeclared, hart9⟩ := hcompliant.special hs
        rw [hbasis] at hdeclared
        exact Option.some.inj hdeclared ▸ hart9
      · refine hcompliant.recipients recipient ?_
        rw [ropaEntry, hr]
        exact hmem
    · intro h region payload entry hentry
      obtain ⟨hart9, hdeclared⟩ := h hpasses
      rw [hallow] at hentry
      cases hentry
      refine ⟨hpasses.region, fun hs => ?_, fun recipient hmem => ?_⟩
      · obtain ⟨hbasis, hsome⟩ := hpasses.special hs
        obtain ⟨basis, hdeclares⟩ := Option.isSome_iff_exists.mp hsome
        exact ⟨hbasis, basis, hdeclares, hart9 hs basis hdeclares⟩
      · rw [ropaEntry] at hmem
        cases hr : options.recipients with
        | none =>
          rw [hr] at hmem
          exact .inl (List.mem_singleton.mp hmem)
        | some recipients =>
          rw [hr] at hmem
          exact hdeclared recipients hr recipient hmem
  · refine ⟨fun _ h => absurd h hpasses, fun _ region payload entry hentry => ?_⟩
    rw [hblock] at hentry
    cases hentry

/-- Health data under a profile that declares plain consent, for a recipient nobody declared. -/
theorem undeclared_allowed :
    ¬ ∀ (call : OutboundCall) (profile : DpaProfile) (options : Options),
      DpaProfileSchema profile → ∀ region payload entry,
        decideOutbound call profile options = .allow region payload entry →
          Compliant call profile entry := by
  intro h
  have hcompliant := h
    ⟨"r", "anthropic", .eu, "text", [.health], .art9Vital, []⟩
    { controller := "firm", processor := "Anthropic PBC", dpa_version := "2024-11-Anthropic"
      signed_on := "2024-11-01", allowed_regions := [.eu], preferred_region := .eu
      special_categories_basis := some .consent }
    { redact := fun payload _ => payload, hash := id, ropaId := "ropa-1"
      now := "2026-01-01T00:00:00Z", purpose := "drafting", recipients := some ["Other Inc"] }
    ⟨by decide, by decide, by decide, by decide, by simp, by decide⟩ _ _ _ rfl
  obtain ⟨-, basis, hbasis, hart9⟩ := hcompliant.special (by decide)
  cases hbasis
  exact absurd hart9 (by decide)

end DpaGuard
end Batiste
