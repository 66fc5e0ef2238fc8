/-
The ChatML fallback and the incremental render (`template.rs`): what a
session renders when its model carries no template of its own.
-/
import Minfer.Session.Calls

namespace Minfer.Session

-- ============================= markers

def imStart : Text := "<|im_start|>".toList

def imEnd : Text := "<|im_end|>".toList

/-- One message of `fallback_chatml_messages`; no content renders like an
empty one. -/
def chatmlMessage (m : Message) : Text :=
  imStart ++ m.role.toList ++ ['\n'] ++ m.content.getD [] ++ imEnd ++ ['\n']

/-- The header a generation prompt ends with. -/
def assistantHeader : Text := imStart ++ "assistant\n".toList

/-- `fallback_chatml_messages`. -/
def fallbackChatmlMessages (messages : List Message) (addGen : Bool) : Text :=
  messages.flatMap chatmlMessage ++ if addGen then assistantHeader else []

/-- The render of a session whose template is `None`: no clock, no error. -/
def chatml : Template := fun _ messages addGen => .ok
    (fallbackChatmlMessages messages addGen)

/-- `strip_suffix('\n')`, when there is one. -/
def trimNewline (text : Text) : Text :=
  if text.getLast? = some '\n' then text.dropLast else text

-- ============================== deltas

/-- What a new message adds under the fallback. -/
def chatmlDelta (past : List Message) (new : Message) : Text :=
  (if past = [] then [] else ['\n']) ++ chatmlMessage new ++ assistantHeader

/-- The render of a history that is not empty ends in a newline. -/
theorem chatml_concat (past : List Message) (m : Message) :
    fallbackChatmlMessages (past ++ [m]) false
      = (past.flatMap chatmlMessage ++ imStart ++ m.role.toList ++ ['\n']
        ++ m.content.getD []
        ++ imEnd) ++ ['\n'] := by
  simp [fallbackChatmlMessages, chatmlMessage]

theorem trimNewline_chatml (past : List Message) (m : Message) :
    trimNewline (fallbackChatmlMessages (past ++ [m]) false)
      = past.flatMap chatmlMessage ++ imStart ++ m.role.toList ++ ['\n']
        ++ m.content.getD []
        ++ imEnd := by
  rw [trimNewline, chatml_concat, List.getLast?_append, List.dropLast_concat]
  rfl

theorem getLast?_chatml {past : List Message} :
    (fallbackChatmlMessages past false).getLast? = if past = [] then none
      else some '\n' := by
  rcases List.eq_nil_or_concat past with rfl | ⟨init, m, rfl⟩
  · rfl
  · rw [List.concat_eq_append, chatml_concat, List.getLast?_append, if_neg (by simp)]
    rfl

/-- A trimmed history and the delta of a new message are the render of
both. -/
theorem trimmed_append_delta (past : List Message) (new : Message) :
    trimNewline (fallbackChatmlMessages past false) ++ chatmlDelta past new
      = fallbackChatmlMessages (past ++ [new]) true := by
  rcases List.eq_nil_or_concat past with rfl | ⟨init, m, rfl⟩
  · simp [trimNewline, fallbackChatmlMessages, chatmlDelta]
  · rw [List.concat_eq_append, trimNewline_chatml]
    simp [fallbackChatmlMessages, chatmlDelta, chatmlMessage]

end Minfer.Session
