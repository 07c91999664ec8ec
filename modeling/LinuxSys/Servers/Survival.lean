import LinuxSys.Servers.Control
import LinuxSys.Servers.FleetNode
import LinuxSys.Servers.TcpHub

/-! # Which runs the three C++ servers survive

None of the three servers ignores or blocks SIGPIPE, and each writes with plain `write` or
`sendmsg`, although their write loops treat a failed write as the loss of that peer only. A run
in which no write meets a broken socket, and in which `poll`, `accept` and thread creation do not
fail, leaves the server running or ends it with status 0 by its own stop path.
-/

namespace LinuxSys.Servers

open Lib

/-- The servers, with what each is started with: a node name, or the pid of the first child. -/
inductive Server where
  | tcpHub
  | fleetNode (localNode : Bytes)
  | control (child : ℕ)

namespace Server

def State : Server → Type
  | .tcpHub => TcpHub.State
  | .fleetNode _ => FleetNode.State
  | .control _ => Control.State

def Action : Server → Type
  | .tcpHub => TcpHub.Action
  | .fleetNode _ => FleetNode.Action
  | .control _ => Control.Action

def machine : (server : Server) → Machine server.State server.Action
  | .tcpHub => TcpHub.tcpHub
  | .fleetNode localNode => FleetNode.fleetNode localNode
  | .control child => Control.control child

def spared : (server : Server) → server.State → server.Action → Bool
  | .tcpHub => TcpHub.spared
  | .fleetNode _ => FleetNode.spared
  | .control _ => Control.spared

def Survives : (server : Server) → server.State → Prop
  | .tcpHub => TcpHub.Survives
  | .fleetNode _ => FleetNode.Survives
  | .control _ => Control.Survives

theorem init (server : Server) : server.Survives server.machine.init := by
  cases server with
  | tcpHub => exact TcpHub.Survives.init
  | fleetNode localNode => exact FleetNode.Survives.init
  | control child => exact Control.Survives.init child

theorem keeps (server : Server) (s : server.State) (a : server.Action) (t : server.State)
    (inv : server.Survives s) (guard : server.spared s a)
    (taken : server.machine.step s a = some t) : server.Survives t := by
  cases server with
  | tcpHub => exact TcpHub.Survives.keeps inv guard taken
  | fleetNode localNode => exact FleetNode.Survives.keeps inv guard taken
  | control child => exact Control.Survives.keeps inv guard taken

end Server

end LinuxSys.Servers
