import Mathlib.Data.List.Induction
import Mathlib.Tactic.Common

/-!
# Request validation

`request.validation.ts` checks bodies with one `options` object for the whole process.
`commonValidate` puts a locale's texts into it when the header names a locale that has a file,
and leaves there what an earlier request put in when it does not. Joi and the files are
parameters.
-/

namespace OlsDapp.Middlewares

/-- The checks the schemas put on a key. -/
inductive Check
  | number
  | string
  | email
  | required
  | min (limit : Nat)
deriving DecidableEq, Repr

/-- `Joi.object().keys(..)`. -/
abbrev Keys := List (String × List Check)

structure Options (Language : Type) where
  allowUnknown : Bool
  language : Language
deriving DecidableEq, Repr

/-- An `Accept-Language` header as `acceptsLanguages()` lists it. -/
structure Request (Body : Type) where
  acceptsLanguages : List String
  body : Body

structure Detail where
  message : String
  path : List String
deriving DecidableEq, Repr

structure ValidationError where
  details : List Detail
deriving DecidableEq, Repr

/-- What `Joi.validate` returns. -/
structure Result (Body : Type) where
  error : Option ValidationError
  value : Body
deriving DecidableEq, Repr

inductive Outcome (Body : Type)
  | next
  /-- `res.json({ ...result, status })`. -/
  | json (result : Result Body) (status : Nat)
deriving DecidableEq, Repr

/-- `fs.existsSync` and `require`, of files that do not change. -/
structure Files (Language : Type) where
  dirname : String
  read : String → Option Language

variable {Language Schema Body : Type}

/-- The object of the module, as it is loaded. -/
def options [EmptyCollection Language] : Options Language := { allowUnknown := true, language := ∅ }

def responseErrorWithObject (result : Result Body) (status : Nat) : Outcome Body :=
  .json result status

/-- The texts the header asks for. An array is truthy even when it is empty, so `|| 'en'` is
never taken, and the template joins what it holds with commas. -/
def locale (files : Files Language) (req : Request Body) : Option Language :=
  let lang := ",".intercalate req.acceptsLanguages
  let langPath := files.dirname ++ "/../resources/locales/" ++ lang ++ "/validation.json"
  files.read langPath

section Handler

variable (files : Files Language) (validate : Body → Schema → Options Language → Result Body)

/-- What is answered, and the options as the call leaves them. -/
def commonValidate (code : Nat) (schema : Schema) (req : Request Body)
    (options : Options Language) : Outcome Body × Options Language :=
  let options :=
    match locale files req with
    | some language => { options with language := language }
    | none => options
  let result := validate req.body schema options
  match result.error with
  | some _ => (responseErrorWithObject result code, options)
  | none => (.next, options)

/-- The arguments a handler calls `commonValidate` with. -/
structure Call (Schema Body : Type) where
  code : Nat
  schema : Schema
  req : Request Body

def withdrawal (req : Request Body) : Call Keys Body where
  code := 422
  schema := [("tokenAmount", [.number, .required, .min 100]), ("mnemonic", [.string, .required])]
  req := req

def sendtoken (req : Request Body) : Call Keys Body where
  code := 422
  schema := [("recvAddress", [.number, .required]), ("sendAmount", [.number, .required]),
    ("mnemonic", [.string, .required])]
  req := req

def resendVerification (req : Request Body) : Call Keys Body where
  code := 422
  schema := [("email", [.string, .email, .required])]
  req := req

def handle (options : Options Language) (call : Call Schema Body) :
    Outcome Body × Options Language :=
  commonValidate files validate call.code call.schema call.req options

variable [EmptyCollection Language]

/-- The options after a history of requests. -/
def after (history : List (Call Schema Body)) : Options Language :=
  history.foldl (fun options call => (handle files validate options call).2) options

/-- What a request is answered after a history. -/
def outcome (history : List (Call Schema Body)) (call : Call Schema Body) : Outcome Body :=
  (handle files validate (after files validate history) call).1

end Handler

/-! ## One call -/

/-- What is answered to a checked body. -/
def respond (result : Result Body) (code : Nat) : Outcome Body :=
  match result.error with
  | some _ => responseErrorWithObject result code
  | none => .next

/-- The body passed both times, or the results are one. -/
def SameAnswer (result result' : Result Body) : Prop :=
  (result.error = none ∧ result'.error = none) ∨ result = result'

theorem respond_eq_iff (result result' : Result Body) (code : Nat) :
    respond result code = respond result' code ↔ SameAnswer result result' := by
  constructor
  · intro h
    unfold respond responseErrorWithObject at h
    cases hr : result.error with
    | none =>
      cases hr' : result'.error with
      | none => exact Or.inl ⟨hr, hr'⟩
      | some error =>
        rw [hr, hr'] at h
        exact absurd h (by intro heq; cases heq)
    | some error =>
      cases hr' : result'.error with
      | none =>
        rw [hr, hr'] at h
        exact absurd h (by intro heq; cases heq)
      | some error' =>
        rw [hr, hr'] at h
        exact Or.inr (Outcome.json.inj h).1
  · intro h
    rcases h with ⟨hr, hr'⟩ | heq
    · rw [respond, respond, hr, hr']
    · rw [heq]

section Step

variable (files : Files Language) (validate : Body → Schema → Options Language → Result Body)

/-- The language is replaced or kept, and the body is checked in what it then is. -/
theorem handle_eq (options : Options Language) (call : Call Schema Body) :
    let loaded := { options with language := (locale files call.req).getD options.language }
    handle files validate options call =
      (respond (validate call.req.body call.schema loaded) call.code, loaded) := by
  have hchecked : ∀ loaded : Options Language,
      (match (validate call.req.body call.schema loaded).error with
        | some _ => (responseErrorWithObject (validate call.req.body call.schema loaded) call.code,
          loaded)
        | none => (.next, loaded)) =
      (respond (validate call.req.body call.schema loaded) call.code, loaded) := by
    intro loaded
    unfold respond
    cases (validate call.req.body call.schema loaded).error with
    | none => rfl
    | some error => rfl
  unfold handle commonValidate
  cases locale files call.req with
  | none => exact hchecked _
  | some language => exact hchecked _

end Step

/-! ## What a history leaves behind -/

section History

variable [EmptyCollection Language] (files : Files Language)
variable (validate : Body → Schema → Options Language → Result Body)

/-- The texts the last request with a locale file asked for, Joi's own when there was none. -/
def lastLanguage (history : List (Call Schema Body)) : Language :=
  ((history.filterMap fun call => locale files call.req).getLast?).getD ∅

theorem lastLanguage_concat (history : List (Call Schema Body)) (call : Call Schema Body) :
    lastLanguage files (history ++ [call]) =
      (locale files call.req).getD (lastLanguage files history) := by
  unfold lastLanguage
  rw [List.filterMap_append]
  cases hlocale : locale files call.req with
  | none =>
    simp only [List.filterMap_cons, hlocale, List.filterMap_nil, List.append_nil, Option.getD_none]
  | some language =>
    simp only [List.filterMap_cons, hlocale, List.filterMap_nil, List.getLast?_concat,
      Option.getD_some]

/-- A run of calls leaves the last language it loaded, whatever the bodies were. -/
theorem after_eq (history : List (Call Schema Body)) :
    after files validate history =
      { allowUnknown := true, language := lastLanguage files history } := by
  induction history using List.reverseRecOn with
  | nil => rfl
  | append_singleton history call ih =>
    have hstep : after files validate (history ++ [call]) =
        (handle files validate (after files validate history) call).2 := by
      unfold after
      rw [List.foldl_append]
      rfl
    rw [hstep, handle_eq, ih, lastLanguage_concat]

/-- The answer depends on the history through the language it left, and only where the header
names no locale file. -/
theorem outcome_eq (history : List (Call Schema Body)) (call : Call Schema Body) :
    outcome files validate history call =
      respond (validate call.req.body call.schema
        ⟨true, (locale files call.req).getD (lastLanguage files history)⟩) call.code := by
  rw [outcome, handle_eq, after_eq]

end History

/-! ## Two histories -/

open Classical in
/-- A Joi that finds a fault in every language but one. -/
noncomputable def faultUnless (language : Language) (body : Body) (_ : Schema)
    (options : Options Language) : Result Body :=
  if options.language = language then ⟨none, body⟩ else ⟨some ⟨[]⟩, body⟩

theorem eq_of_sameAnswer_faultUnless {language language' : Language} {body : Body}
    {schema : Schema} (h : SameAnswer (faultUnless language body schema ⟨true, language⟩)
      (faultUnless language body schema ⟨true, language'⟩)) : language = language' := by
  by_contra hne
  have hpass : faultUnless language body schema ⟨true, language⟩ = ⟨none, body⟩ := if_pos rfl
  have hfault : faultUnless language body schema ⟨true, language'⟩ = ⟨some ⟨[]⟩, body⟩ :=
    if_neg (Ne.symm hne)
  rw [hpass, hfault] at h
  rcases h with ⟨_, hnone⟩ | heq
  · cases hnone
  · cases heq

section TwoHistories

variable [EmptyCollection Language] (files : Files Language)
variable (history history' : List (Call Schema Body)) (call : Call Schema Body)

/-- With one Joi: the header names a locale file, or Joi answers the same in what was left. -/
theorem outcome_eq_outcome_iff (validate : Body → Schema → Options Language → Result Body) :
    outcome files validate history call = outcome files validate history' call ↔
      (locale files call.req).isSome ∨
        SameAnswer
          (validate call.req.body call.schema ⟨true, lastLanguage files history⟩)
          (validate call.req.body call.schema ⟨true, lastLanguage files history'⟩) := by
  rw [outcome_eq, outcome_eq]
  cases locale files call.req with
  | none =>
    rw [Option.getD_none, Option.getD_none, respond_eq_iff]
    simp only [Option.isSome_none, Bool.false_eq_true, false_or]
  | some language => simp only [Option.getD_some, Option.isSome_some, true_or]

/-- With any Joi: the header names a locale file, or one language was left. -/
theorem outcome_eq_outcome_forall_iff :
    (∀ validate : Body → Schema → Options Language → Result Body,
        outcome files validate history call = outcome files validate history' call) ↔
      (locale files call.req).isSome ∨
        lastLanguage files history = lastLanguage files history' := by
  constructor
  · intro hall
    have hfault := hall (faultUnless (lastLanguage files history))
    rcases (outcome_eq_outcome_iff files history history' call _).mp hfault with hsome | hsame
    · exact Or.inl hsome
    · exact Or.inr (eq_of_sameAnswer_faultUnless hsame)
  · intro hcond validate
    apply (outcome_eq_outcome_iff files history history' call validate).mpr
    rcases hcond with hsome | hlast
    · exact Or.inl hsome
    · rw [hlast]
      exact Or.inr (Or.inr rfl)

end TwoHistories

/-- A request is answered the same after two histories exactly when its header names a locale
file or Joi answers the same in the languages they left; and this is so for every Joi exactly
when they left one language. -/
theorem same_outcome_iff [EmptyCollection Language] (files : Files Language)
    (history history' : List (Call Schema Body)) (call : Call Schema Body) :
    (∀ validate, outcome files validate history call = outcome files validate history' call ↔
      (locale files call.req).isSome ∨
        SameAnswer
          (validate call.req.body call.schema ⟨true, lastLanguage files history⟩)
          (validate call.req.body call.schema ⟨true, lastLanguage files history'⟩)) ∧
    ((∀ validate : Body → Schema → Options Language → Result Body,
        outcome files validate history call = outcome files validate history' call) ↔
      (locale files call.req).isSome ∨
        lastLanguage files history = lastLanguage files history') :=
  ⟨outcome_eq_outcome_iff files history history' call,
    outcome_eq_outcome_forall_iff files history history' call⟩

/-! ## A visitor before -/

/-- The two locales of the repository, with the text this run uses. -/
def locales : Files (List (String × String)) where
  dirname := "src/middlewares"
  read langPath :=
    if langPath = "src/middlewares/../resources/locales/ru/validation.json" then
      some [("any.required", "обязательно")]
    else if langPath = "src/middlewares/../resources/locales/ch/validation.json" then
      some [("any.required", "确定")]
    else none

/-- Joi's answer to an object with strings only, as far as `required` goes. -/
def validateRequired (body : List (String × String)) (schema : Keys)
    (options : Options (List (String × String))) : Result (List (String × String)) :=
  let missing := schema.find? fun key =>
    key.2.contains .required && (body.lookup key.1).isNone
  let text := (options.language.lookup "any.required").getD "is required"
  { error := missing.map fun key => ⟨[⟨s!"\"{key.1}\" {text}", [key.1]⟩]⟩
    value := body }

/-- An empty form sent by a browser of the language. -/
def emptyForm (lang : String) : Call Keys (List (String × String)) :=
  withdrawal { acceptsLanguages := [lang], body := [] }

/-- Whether somebody sent a form in Russian before decides the language an English browser is
answered in. -/
theorem english_after_russian :
    outcome locales validateRequired [] (emptyForm "en") =
        .json ⟨some ⟨[⟨"\"tokenAmount\" is required", ["tokenAmount"]⟩]⟩, []⟩ 422 ∧
      outcome locales validateRequired [emptyForm "ru"] (emptyForm "en") =
        .json ⟨some ⟨[⟨"\"tokenAmount\" обязательно", ["tokenAmount"]⟩]⟩, []⟩ 422 ∧
      ¬ ∀ history history' : List (Call Keys (List (String × String))),
        outcome locales validateRequired history (emptyForm "en") =
          outcome locales validateRequired history' (emptyForm "en") := by
  have hbefore : outcome locales validateRequired [] (emptyForm "en") =
      .json ⟨some ⟨[⟨"\"tokenAmount\" is required", ["tokenAmount"]⟩]⟩, []⟩ 422 := by
    decide +kernel
  have hafter : outcome locales validateRequired [emptyForm "ru"] (emptyForm "en") =
      .json ⟨some ⟨[⟨"\"tokenAmount\" обязательно", ["tokenAmount"]⟩]⟩, []⟩ 422 := by
    decide +kernel
  refine ⟨hbefore, hafter, ?_⟩
  intro hall
  have heq := hall [] [emptyForm "ru"]
  rw [hbefore, hafter] at heq
  exact absurd heq (by decide)

end OlsDapp.Middlewares
