import Manvi.Encoding.Blocks
import Manvi.Encoding.Space
import Manvi.OpenAICompat.TagFilter

/-! Recovering the tool calls that a server left in the text. -/
namespace Manvi.OpenAICompat
open Manvi.Encoding

section tagged
variable {ParsedCall : Type} (parseCallPayload : Bytes → Option (List ParsedCall))

/-- Walk the tool-call blocks of a text: what is left as prose, and the calls. -/
def walkTaggedCalls : ℕ → Bytes → Bytes × List ParsedCall :=
  walkBlocks toolCallOpen toolCallClose (fun body => parseCallPayload (trimSpace body))

/-- The calls of every tool-call block, and the text without the blocks they were read from. A
payload is read with the tools that are offered. -/
def extractTaggedCalls (data : Bytes) : Bytes × List ParsedCall :=
  if !contains data toolCallOpen then (data,[])
  else
    let walked := walkTaggedCalls parseCallPayload (data.length+1) data
    if walked.2.isEmpty then (data,[]) else (trimSpace walked.1,walked.2)

variable {parseCallPayload}

lemma mem_extractTaggedCalls {data : Bytes} {c : ParsedCall}
    (h : c ∈ (extractTaggedCalls parseCallPayload data).2) :
    ∃ a body b parsed, data = a ++ toolCallOpen ++ (body ++ toolCallClose ++ b) ∧
      parseCallPayload (trimSpace body) = some parsed ∧ c ∈ parsed := by
  unfold extractTaggedCalls at h
  dsimp only at h
  split_ifs at h
  · cases h
  · cases h
  · exact mem_walkBlocks h

end tagged

end Manvi.OpenAICompat
