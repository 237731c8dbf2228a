import MuCompletion.Server.Basic

/-!
# Sessions

Handling a request alone takes all its steps one after the other. Of a batch of requests each is
begun in turn; one that computes completions goes on only after all have begun.
-/

namespace MuCompletion

namespace Server

/-- Take all steps of a task, with no other request in between. -/
def finish (server : Server) (task : Task) : Server × Reply :=
  match _taken : server.step task with
  | (server, .answered reply) => (server, reply)
  | (server, .waiting left) => finish server left
termination_by task.stepsLeft
decreasing_by exact stepsLeft_step _taken

def handle (server : Server) (request : Request) : Server × Reply :=
  server.finish (.received request)

/-- Take the steps of a task until it has an answer or is about to compute completions. -/
def begin (server : Server) (task : Task) : Server × Progress :=
  if task.isComputing then (server, .waiting task)
  else
    match _taken : server.step task with
    | (server, .answered reply) => (server, .answered reply)
    | (server, .waiting left) => begin server left
termination_by task.stepsLeft
decreasing_by exact stepsLeft_step _taken

/-- Take the steps that a begun request has left. -/
def conclude (server : Server) : Progress → Server × Reply
  | .answered reply => (server, reply)
  | .waiting task => server.finish task

/-- Do something with each element in turn, handing the server on. -/
def inTurn (act : Server → α → Server × β) (server : Server) : List α → Server × List β
  | [] => (server, [])
  | first :: rest =>
    let (server, result) := act server first
    let (server, results) := inTurn act server rest
    (server, result :: results)

/-- Handle requests at once: begin each in turn, then conclude each in turn. -/
def handleBatch (server : Server) (requests : List Request) : Server × List Reply :=
  let (server, progress) :=
    inTurn (fun server request => server.begin (.received request)) server requests
  inTurn conclude server progress

end Server

end MuCompletion
