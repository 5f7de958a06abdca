namespace Workflow

inductive StepType where
  | form | questionnaire | fileRequest | todo | approval | acknowledgement | esign | decision
  | customAction | webApp | pdfForm
  | singleChoiceBranch | multiChoiceBranch | parallelBranch | goto | gotoDestination | terminate
  | wait | subFlow
  | aiCustomPrompt | aiExtract | aiSummarize | aiTranscribe | aiTranslate | aiWrite
  | systemWebhook | systemEmail | systemChatMessage | systemUpdateWorkspace | businessRule
  | integrationAirtable | integrationClickup | integrationDropbox | integrationGmail
  | integrationGoogleDrive | integrationGoogleSheets | integrationWrike
  deriving DecidableEq, Repr

inductive StepCategory where
  | humanAction | control | automation
  deriving DecidableEq, Repr

namespace StepType

def all : List StepType :=
  [.form, .questionnaire, .fileRequest, .todo, .approval, .acknowledgement, .esign, .decision,
   .customAction, .webApp, .pdfForm, .singleChoiceBranch, .multiChoiceBranch, .parallelBranch,
   .goto, .gotoDestination, .terminate, .wait, .subFlow, .aiCustomPrompt, .aiExtract, .aiSummarize,
   .aiTranscribe, .aiTranslate, .aiWrite, .systemWebhook, .systemEmail, .systemChatMessage,
   .systemUpdateWorkspace, .businessRule, .integrationAirtable, .integrationClickup,
   .integrationDropbox, .integrationGmail, .integrationGoogleDrive, .integrationGoogleSheets,
   .integrationWrike]

def name : StepType → String
  | .form => "FORM"
  | .questionnaire => "QUESTIONNAIRE"
  | .fileRequest => "FILE_REQUEST"
  | .todo => "TODO"
  | .approval => "APPROVAL"
  | .acknowledgement => "ACKNOWLEDGEMENT"
  | .esign => "ESIGN"
  | .decision => "DECISION"
  | .customAction => "CUSTOM_ACTION"
  | .webApp => "WEB_APP"
  | .pdfForm => "PDF_FORM"
  | .singleChoiceBranch => "SINGLE_CHOICE_BRANCH"
  | .multiChoiceBranch => "MULTI_CHOICE_BRANCH"
  | .parallelBranch => "PARALLEL_BRANCH"
  | .goto => "GOTO"
  | .gotoDestination => "GOTO_DESTINATION"
  | .terminate => "TERMINATE"
  | .wait => "WAIT"
  | .subFlow => "SUB_FLOW"
  | .aiCustomPrompt => "AI_CUSTOM_PROMPT"
  | .aiExtract => "AI_EXTRACT"
  | .aiSummarize => "AI_SUMMARIZE"
  | .aiTranscribe => "AI_TRANSCRIBE"
  | .aiTranslate => "AI_TRANSLATE"
  | .aiWrite => "AI_WRITE"
  | .systemWebhook => "SYSTEM_WEBHOOK"
  | .systemEmail => "SYSTEM_EMAIL"
  | .systemChatMessage => "SYSTEM_CHAT_MESSAGE"
  | .systemUpdateWorkspace => "SYSTEM_UPDATE_WORKSPACE"
  | .businessRule => "BUSINESS_RULE"
  | .integrationAirtable => "INTEGRATION_AIRTABLE"
  | .integrationClickup => "INTEGRATION_CLICKUP"
  | .integrationDropbox => "INTEGRATION_DROPBOX"
  | .integrationGmail => "INTEGRATION_GMAIL"
  | .integrationGoogleDrive => "INTEGRATION_GOOGLE_DRIVE"
  | .integrationGoogleSheets => "INTEGRATION_GOOGLE_SHEETS"
  | .integrationWrike => "INTEGRATION_WRIKE"

def ofName? (s : String) : Option StepType :=
  all.find? fun t => t.name == s

def category : StepType → StepCategory
  | .form | .questionnaire | .fileRequest | .todo | .approval | .acknowledgement | .esign
  | .decision | .customAction | .webApp | .pdfForm => .humanAction
  | .singleChoiceBranch | .multiChoiceBranch | .parallelBranch | .goto | .gotoDestination
  | .terminate | .wait | .subFlow => .control
  | _ => .automation

/-- Types of steps that carry nothing but action settings. -/
def isAction : StepType → Bool
  | .decision | .singleChoiceBranch | .multiChoiceBranch | .parallelBranch | .goto
  | .gotoDestination | .terminate | .subFlow => false
  | _ => true

/-- The words of a type's name, each with a capital: `File Request`. -/
def displayName (t : StepType) : String :=
  String.ofList (go true t.name.toList)
where
  go : Bool → List Char → List Char
    | _, [] => []
    | start, c :: rest =>
      if c = '_' then ' ' :: go true rest
      else (if start then c.toUpper else c.toLower) :: go false rest

theorem mem_all (t : StepType) : t ∈ all := by
  cases t <;> decide

end StepType

def StepCategory.name : StepCategory → String
  | .humanAction => "HUMAN_ACTION"
  | .control => "CONTROL"
  | .automation => "AUTOMATION"

abbrev ActionType :=
  { t : StepType // t.isAction = true }

/-- How many of several have to be done before the whole counts as done. -/
inductive Quorum where
  | anyOne | all | majority
  deriving DecidableEq, Repr

namespace Quorum

def name : Quorum → String
  | .anyOne => "ANY_ONE"
  | .all => "ALL"
  | .majority => "MAJORITY"

def ofName? : String → Option Quorum
  | "ANY_ONE" => some .anyOne
  | "ALL" => some .all
  | "MAJORITY" => some .majority
  | _ => none

/-- Whether `completed` of `total` suffice. Nothing is left to wait for when `total` is zero. -/
def isSatisfied : Quorum → Nat → Nat → Bool
  | .all, completed, total => decide (total ≤ completed)
  | .majority, completed, total => decide (total < completed * 2) || total == 0
  | .anyOne, completed, total => decide (1 ≤ completed) || total == 0

/-- The same for counts in 64-bit words. Twice a count is a word too, so from 2^63 on it wraps. -/
def isSatisfiedWord : Quorum → UInt64 → UInt64 → Bool
  | .all, completed, total => decide (total ≤ completed)
  | .majority, completed, total => decide (total < completed * 2) || total == 0
  | .anyOne, completed, total => decide (1 ≤ completed) || total == 0

/-- Numbers and the words for them agree as long as twice the numbers are words. -/
theorem isSatisfied_eq_word (q : Quorum) {completed total : Nat}
    (hcompleted : completed < 9223372036854775808) (htotal : total < 9223372036854775808) :
    q.isSatisfied completed total =
      q.isSatisfiedWord (UInt64.ofNat completed) (UInt64.ofNat total) := by
  have hc : (UInt64.ofNat completed).toNat = completed :=
    UInt64.toNat_ofNat_of_lt (Nat.lt_trans hcompleted (by decide))
  have ht : (UInt64.ofNat total).toNat = total :=
    UInt64.toNat_ofNat_of_lt (Nat.lt_trans htotal (by decide))
  have hd : (UInt64.ofNat completed * 2).toNat = completed * 2 := by
    rw [UInt64.toNat_mul, hc]
    exact Nat.mod_eq_of_lt (by simp; omega)
  have hz : (UInt64.ofNat total == 0) = (total == 0) := by
    rw [Bool.eq_iff_iff, beq_iff_eq, beq_iff_eq, ← UInt64.toNat_inj, ht]
    rfl
  cases q with
  | anyOne => simp [isSatisfiedWord, isSatisfied, hz, UInt64.le_iff_toNat_le, hc]
  | all => simp [isSatisfiedWord, isSatisfied, UInt64.le_iff_toNat_le, hc, ht]
  | majority => simp only [isSatisfiedWord, isSatisfied, hz, UInt64.lt_iff_toNat_lt, hd, ht]

end Quorum

inductive TerminateStatus where
  | completed | cancelled
  deriving DecidableEq, Repr

def TerminateStatus.name : TerminateStatus → String
  | .completed => "COMPLETED"
  | .cancelled => "CANCELLED"

end Workflow
