import Tinkiva.Error
import Tinkiva.Settings

/-!
# The bearer check

`authorize` of `src/src/api.rs`, in front of the handlers of `/v1`.  A missing header,
one that is not visible ASCII and one of another scheme all become the empty string,
which is then compared with the token.

So the check is exact for a token that is not empty and that a header can present: its
bytes are visible ASCII, or it has a byte that no header value has.
-/

namespace Tinkiva.Api

open Config

/-! ## Headers -/

/-- A byte that an `http::HeaderValue` may have. -/
def isHeaderByte (b : UInt8) : Bool := (32 ≤ b && b != 127) || b == 9

/-- A byte that `HeaderValue::to_str` accepts: visible ASCII, space and tab. -/
def isVisibleAscii (b : UInt8) : Bool := (32 ≤ b && b < 127) || b == 9

/-- `http::HeaderValue`. -/
structure HeaderValue where
  bytes : List UInt8
  valid : bytes.all isHeaderByte = true
  deriving DecidableEq

/-- `HeaderValue::to_str`, where it succeeds, as the bytes of the string. -/
def HeaderValue.toStr (value : HeaderValue) : Option (List UInt8) :=
  if value.bytes.all isVisibleAscii then some value.bytes else none

/-- `http::HeaderMap`: the headers in order, with their names in lower case. -/
abbrev HeaderMap := List (String × HeaderValue)

/-- `HeaderMap::get`: the first header of the name. -/
def HeaderMap.get (headers : HeaderMap) (name : String) : Option HeaderValue := headers.lookup name

/-- `header::AUTHORIZATION`. -/
def authorizationName : String := "authorization"

/-- The bytes of a `String`. -/
def utf8 (text : String) : List UInt8 := text.toUTF8.data.toList

/-- `"Bearer "`. -/
def bearerPrefix : List UInt8 := utf8 "Bearer "

/-- `str::strip_prefix`. -/
def stripPrefix (start bytes : List UInt8) : Option (List UInt8) :=
  if start.isPrefixOf bytes then some (bytes.drop start.length) else none

/-- `subtle::ConstantTimeEq` for slices: no byte is skipped. -/
def ctEq (a b : List UInt8) : Bool :=
  a.length == b.length && (a.zip b).foldl (fun equal p => equal && p.1 == p.2) true

/-! ## The router -/

/-- The routes. -/
inductive Route where
  | health
  | query
  | execute
  | batch
  | stats
  | metrics
  deriving DecidableEq, Repr

/-- `nest("/v1", api)`. -/
def Route.inV1 : Route → Bool
  | .health => false
  | .query | .execute | .batch | .stats | .metrics => true

/-- A request to a route. -/
structure Request where
  route : Route
  headers : HeaderMap

/-- What the client has provided. -/
def provided (headers : HeaderMap) : List UInt8 :=
  (((headers.get authorizationName).bind HeaderValue.toStr).bind
    (stripPrefix bearerPrefix)).getD []

/-- `authorize`, in front of `next`. -/
def authorize {α : Type} (settings : Settings) (headers : HeaderMap) (next : α) :
    Except AppError α :=
  match settings.server.authToken with
  | none => .ok next
  | some expected =>
    if (provided headers).length ≠ (utf8 expected).length ||
        !ctEq (provided headers) (utf8 expected) then
      .error .unauthorized
    else .ok next

/-- `router`: the handler that a request comes to, or the error that it is answered with
before. -/
def router (settings : Settings) (request : Request) : Except AppError Route :=
  if request.route.inV1 then authorize settings request.headers request.route
  else .ok request.route

/-! ## The check -/

theorem ctEq_iff {a b : List UInt8} : ctEq a b = true ↔ a = b := by
  have hfold : ∀ (pairs : List (UInt8 × UInt8)) (equal : Bool),
      pairs.foldl (fun equal p => equal && p.1 == p.2) equal = true ↔
        equal = true ∧ ∀ p ∈ pairs, p.1 = p.2 := by
    intro pairs
    induction pairs with
    | nil => simp
    | cons p pairs ih =>
      intro equal
      rw [List.foldl_cons, ih, List.forall_mem_cons, Bool.and_eq_true, beq_iff_eq, and_assoc]
  constructor
  · intro h
    obtain ⟨hlength, hbytes⟩ := Bool.and_eq_true_iff.mp h
    apply List.ext_getElem (beq_iff_eq.mp hlength)
    intro i hi hi'
    have hmem : (a[i], b[i]) ∈ a.zip b :=
      List.mem_iff_getElem.mpr ⟨i, by rw [List.length_zip]; omega, List.getElem_zip⟩
    exact ((hfold _ _).mp hbytes).2 _ hmem
  · rintro rfl
    refine Bool.and_eq_true_iff.mpr ⟨beq_self_eq_true _, (hfold _ _).mpr ⟨rfl, ?_⟩⟩
    rintro p hmem
    obtain ⟨i, hi, rfl⟩ := List.mem_iff_getElem.mp hmem
    rw [List.getElem_zip]

/-- The request comes to its handler exactly if what is provided is the token. -/
theorem router_eq_ok {settings : Settings} {request : Request} {token : String}
    (htoken : settings.server.authToken = some token) (hroute : request.route.inV1 = true) :
    router settings request = .ok request.route ↔ provided request.headers = utf8 token := by
  simp only [router, hroute, if_true, authorize, htoken]
  split
  · rename_i hrefused
    refine ⟨fun h => by simp at h, fun heq => absurd hrefused ?_⟩
    rw [heq, ctEq_iff.mpr rfl]
    simp
  · rename_i hequal
    refine ⟨fun _ => ?_, fun _ => rfl⟩
    simp only [Bool.or_eq_true, not_or, Bool.not_eq_true, Bool.not_eq_false'] at hequal
    exact ctEq_iff.mp hequal.2

theorem stripPrefix_eq_some {start bytes rest : List UInt8} :
    stripPrefix start bytes = some rest ↔ bytes = start ++ rest := by
  unfold stripPrefix
  split
  · rename_i hprefix
    obtain ⟨after, rfl⟩ := List.isPrefixOf_iff_prefix.mp hprefix
    rw [List.drop_left, Option.some_inj, List.append_cancel_left_eq]
  · rename_i hprefix
    refine ⟨fun h => by simp at h, ?_⟩
    rintro rfl
    exact absurd (List.isPrefixOf_iff_prefix.mpr (List.prefix_append _ _)) hprefix

/-- Bytes that are not empty are provided by a header that is visible ASCII, and is
`Bearer` and these bytes. -/
theorem provided_eq {headers : HeaderMap} {token : List UInt8} (hempty : token ≠ []) :
    provided headers = token ↔ ∃ value, headers.get authorizationName = some value ∧
      value.bytes.all isVisibleAscii = true ∧ value.bytes = bearerPrefix ++ token := by
  unfold provided
  cases headers.get authorizationName with
  | none => simpa using hempty.symm
  | some value =>
    simp only [Option.bind_some, Option.some_inj, exists_eq_left', HeaderValue.toStr]
    cases hvisible : value.bytes.all isVisibleAscii with
    | false => simpa using hempty.symm
    | true =>
      simp only [if_true, Option.bind_some, true_and]
      cases hstrip : stripPrefix bearerPrefix value.bytes with
      | none =>
        refine ⟨fun h => absurd h.symm hempty, fun h => ?_⟩
        rw [stripPrefix_eq_some.mpr h] at hstrip
        simp at hstrip
      | some rest =>
        rw [stripPrefix_eq_some.mp hstrip, List.append_cancel_left_eq]
        rfl

/-- The bytes of a header are those that a `HeaderValue` may have. -/
theorem isHeaderByte_of_visible {b : UInt8} (h : isVisibleAscii b = true) :
    isHeaderByte b = true := by
  simp only [isVisibleAscii, isHeaderByte, Bool.or_eq_true, Bool.and_eq_true, decide_eq_true_eq,
    bne_iff_ne] at h ⊢
  exact h.imp_left fun hb => ⟨hb.1, UInt8.ne_of_lt hb.2⟩

theorem bearerPrefix_visible : bearerPrefix.all isVisibleAscii = true := by decide

/-- `Authorization: Bearer <token>`: the first header of the name has exactly these bytes. -/
def Presents (headers : HeaderMap) (token : String) : Prop :=
  ∃ value, headers.get authorizationName = some value ∧
    value.bytes = bearerPrefix ++ utf8 token

/-- A token that clients can present, or that no client can. -/
def Checkable (token : String) : Prop :=
  (∀ b ∈ utf8 token, isVisibleAscii b = true) ∨ ∃ b ∈ utf8 token, isHeaderByte b = false

theorem utf8_eq_nil {text : String} : utf8 text = [] ↔ text = "" := by
  refine ⟨fun h => ?_, fun h => by rw [h]; rfl⟩
  have hbytes : text.toByteArray = "".toByteArray := ByteArray.ext (Array.toList_inj.mp h)
  exact String.toByteArray_inj.mp hbytes

/-- For a token that is not empty and checkable, the check is exact. -/
theorem provided_iff_presents {headers : HeaderMap} {token : String} (hempty : token ≠ "")
    (hcheckable : Checkable token) :
    provided headers = utf8 token ↔ Presents headers token := by
  rw [provided_eq (fun h => hempty (utf8_eq_nil.mp h))]
  refine exists_congr fun value => and_congr_right fun _ => and_iff_right_of_imp fun hbytes => ?_
  rcases hcheckable with hvisible | ⟨b, hmem, hb⟩
  · rw [hbytes, List.all_append, bearerPrefix_visible, Bool.true_and]
    exact List.all_eq_true.mpr hvisible
  · have hall := List.all_eq_true.mp value.valid b (hbytes ▸ List.mem_append_right _ hmem)
    rw [hb] at hall
    simp at hall

/-- The requests to `/v1` that come to their handler are those that present the token, for
every header map, exactly if the token is not empty and checkable. -/
theorem bearer_check_exact {outside : Outside} {path : Option String} {settings : Settings}
    {token : String} (hload : Settings.load outside path = .ok settings)
    (htoken : settings.server.authToken = some token) :
    ((∀ request : Request, request.route.inV1 = true →
        (router settings request = .ok request.route ↔ Presents request.headers token)) ↔
      token ≠ "" ∧ Checkable token) ∧
    ∀ value, outside.var "TINKIVA_AUTH_TOKEN" = some value → token = value ∧ token ≠ "" := by
  refine ⟨⟨fun hexact => ?_, ?_⟩, fun value hvar => load_authToken_var hload htoken hvar⟩
  · have hempty : token ≠ "" := by
      rintro rfl
      have hnone := hexact ⟨.stats, []⟩ rfl
      rw [router_eq_ok htoken rfl] at hnone
      obtain ⟨value, hvalue, _⟩ := hnone.mp (utf8_eq_nil.mpr rfl).symm
      simp [HeaderMap.get] at hvalue
    refine ⟨hempty, ?_⟩
    by_contra hcheckable
    -- A header can present the token, and is not visible ASCII.
    obtain ⟨hvisible, hvalid⟩ := not_or.mp hcheckable
    have hbytes : ∀ b ∈ bearerPrefix ++ utf8 token, isHeaderByte b = true := by
      intro b hb
      rcases List.mem_append.mp hb with hb | hb
      · exact isHeaderByte_of_visible (List.all_eq_true.mp bearerPrefix_visible b hb)
      · by_contra hnot
        exact hvalid ⟨b, hb, Bool.eq_false_iff.mpr hnot⟩
    let value : HeaderValue := ⟨bearerPrefix ++ utf8 token, List.all_eq_true.mpr hbytes⟩
    have hpresents : Presents [(authorizationName, value)] token := ⟨value, rfl, rfl⟩
    have haccepted := (hexact ⟨.stats, [(authorizationName, value)]⟩ rfl).mpr hpresents
    rw [router_eq_ok htoken rfl, provided_eq fun h => hempty (utf8_eq_nil.mp h)] at haccepted
    obtain ⟨value', hvalue', hall, hbytes'⟩ := haccepted
    rw [hbytes', List.all_append, Bool.and_eq_true] at hall
    exact hvisible (List.all_eq_true.mp hall.2)
  · rintro ⟨hempty, hcheckable⟩ request hroute
    rw [router_eq_ok htoken hroute]
    exact provided_iff_presents hempty hcheckable

/-- A file that sets the token, and an empty environment. -/
def tokenFile (token : String) : Outside where
  readToString path :=
    if path = "config.toml" then some ("[server]\nauth_token = \"" ++ token ++ "\"\n") else none
  fromStr contents :=
    if contents = "[server]\nauth_token = \"" ++ token ++ "\"\n" then
      some { Settings.default with server := { ServerSettings.default with authToken := token } }
    else none
  var _ := none

/-- The settings that the file gives. -/
def tokenSettings (token : String) : Settings :=
  { Settings.default with server := { ServerSettings.default with authToken := token } }

theorem load_tokenFile (token : String) :
    Settings.load (tokenFile token) (some "config.toml") = .ok (tokenSettings token) := by
  have hread : readSettings (tokenFile token) "config.toml" = .ok (tokenSettings token) := by
    simp only [readSettings, tokenFile, if_true]
    rfl
  have happly : (tokenSettings token).applyEnvironment (tokenFile token) =
      .ok (tokenSettings token) := rfl
  rw [Settings.load, Option.elim_some, hread]
  show ((tokenSettings token).applyEnvironment (tokenFile token) >>= _) = _
  rw [happly]
  rfl

theorem bearer_check_exact_token :
    router (tokenSettings "change-me") ⟨.query, [(authorizationName,
      ⟨bearerPrefix ++ utf8 "change-me", by decide⟩)]⟩ = .ok .query :=
  ((bearer_check_exact (load_tokenFile "change-me") rfl).1.mpr
    ⟨by decide, Or.inl (List.all_eq_true.mp (by decide))⟩ ⟨.query, _⟩ rfl).mpr ⟨_, rfl, rfl⟩

/-- With the empty token of a file, a request without the header comes to its handler.
With a token that is not ASCII, a request that presents it does not. -/
theorem bearer_check_inexact :
    (Settings.load (tokenFile "") (some "config.toml") = .ok (tokenSettings "") ∧
      router (tokenSettings "") ⟨.stats, []⟩ = .ok .stats) ∧
    Settings.load (tokenFile "é") (some "config.toml") = .ok (tokenSettings "é") ∧
    ∃ value : HeaderValue, value.bytes = bearerPrefix ++ utf8 "é" ∧
      router (tokenSettings "é") ⟨.stats, [(authorizationName, value)]⟩ = .error .unauthorized :=
  ⟨⟨load_tokenFile "", by rfl⟩, load_tokenFile "é",
    ⟨bearerPrefix ++ utf8 "é", by decide⟩, rfl, by rfl⟩

end Tinkiva.Api
